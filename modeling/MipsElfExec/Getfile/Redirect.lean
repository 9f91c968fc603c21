import MipsElfExec.Getfile.Path
import MipsElfExec.Snooping.Leftover
import MipsElfExec.Snooping.System

/-! Where clients are sent for what was stored: the path in a redirect is made from the entry when the request comes,
and so is each path that content is stored under. -/
namespace MipsElfExec.Getfile
open CString Snooping Run

section path

def fileFor (e : UrlEntry) (url : Bytes) : Option Bytes := e.pcacheRule.map (ngxHttpUrl2localFile url)

def localPath (e : UrlEntry) : Bytes := cstr ((fileFor e e.urlBuf).getD [] ++ e.mimePostfix)

def redirectHead (P : Platform) (con : Con) (e : UrlEntry) : Bytes :=
  httpRedirect302Str ++ httpConStr e.cacheFlg.conClose ++ ascii "Location: http://" ++
    P.addrText (if e.redirectAddr ≠ 0 then e.redirectAddr else con.localServerAddr) ++ ascii ":8080/"

def redirectPath (e : UrlEntry) : Bytes := if e.cacheFlg.homepagePoll then [] else localPath e

def redirectQuery (e : UrlEntry) (resUrl : Bytes) : Bytes :=
  if e.cacheFlg.homepagePoll = false ∧ e.cacheFlg.redirectPara = true then resUrl.dropWhile (· ≠ 63) else []

theorem redirectNames (P : Platform) (con : Con) (e : UrlEntry) (resUrl : Bytes) :
    redirectText P con e resUrl = redirectHead P con e ++ redirectPath e ++ redirectQuery e resUrl ++ httpEnd := by
  unfold redirectText redirectHead redirectPath redirectQuery localPath fileFor
  dsimp only
  cases e.cacheFlg.homepagePoll <;> cases e.cacheFlg.redirectPara <;> simp

def naming (e : UrlEntry) : Option Bytes × Bytes × CacheFlg := (fileFor e e.urlBuf,e.mimePostfix,e.cacheFlg)

theorem namingSame {e e' : UrlEntry} (url : e'.urlBuf = e.urlBuf) (mime : e'.mimePostfix = e.mimePostfix)
    (rule : e'.pcacheRule = e.pcacheRule) : naming e' = naming e := by
  unfold naming fileFor UrlEntry.cacheFlg
  rw [url,mime,rule]

theorem redirectSame {e e' : UrlEntry} (same : naming e' = naming e) : redirectPath e' = redirectPath e := by
  obtain ⟨file,rest⟩ := Prod.mk.inj same
  obtain ⟨mime,flg⟩ := Prod.mk.inj rest
  unfold redirectPath localPath
  rw [file,mime,flg]

theorem holdUrl (e : UrlEntry) (name : Bytes) : (e.hold name).urlBuf = name := List.takeWhile_append_dropWhile

end path

-- `stored` tells the path that the content of each entry was stored under last.
structure Shelf extends World where
  stored : UrlId → Option Bytes := fun _ => none

inductive ShelfEvent where
  | device (e : WorldEvent)
  | store (m : Mapping)

def tenure (e : UrlEntry) : Bool × Nat := (e.urlFlags.res,e.tenancy)

def Shelf.wrote (s : Shelf) (id : UrlId) : WorldEvent → Bool
  | .task (.write e) => s.writer.working == some id && e.saves (s.ctx.urls id)
  | _ => false

def Shelf.kept (s : Shelf) (e : WorldEvent) (t : World) (id : UrlId) : Option Bytes :=
  if tenure (t.ctx.urls id) ≠ tenure (s.ctx.urls id) then none
  else if s.wrote id e then some (localPath (s.ctx.urls id))
  else s.stored id

def Shelf.step (P : Platform) (s : Shelf) : ShelfEvent → Option Shelf
  | .device e => (s.toWorld.step P e).map fun t => { t with stored := s.kept e t }
  | .store m => (storeName s.ctx.urls m).map fun name =>
    { s with stored := fun id => if mapUriUrlId m.args = some id.val then some (cstr name) else s.stored id }

def Shelf.start (jiffies : Nat) : Shelf := { World.start jiffies with }

def Shelf.located (s : Shelf) : Prop :=
  ∀ id,(s.ctx.urls id).urlFlags.resWrite = true → ∃ path,s.stored id = some path ∧ ∀ P con resUrl,
    redirectText P con (s.ctx.urls id) resUrl =
      redirectHead P con (s.ctx.urls id) ++ path ++ redirectQuery (s.ctx.urls id) resUrl ++ httpEnd

def Shelf.fits (s : Shelf) : TableOp → Prop
  | .youkuPut found _ _ name => ∀ id ∈ found.or (urlNextFree s.ctx),
    found = some id ∧ s.stored id ≠ none ∧
      fileFor (s.ctx.urls id) name = fileFor (s.ctx.urls id) (s.ctx.urls id).urlBuf
  | .recordQueue id => s.stored id ≠ none → (s.ctx.urls id).mimePostfix = []
  | .setby id state => state = .ok → (s.ctx.urls id).urlFlags.res = true → s.stored id ≠ none
  | _ => True

def Shelf.careful (P : Platform) (s : Shelf) : ShelfEvent → Prop
  | .device (.task (.advance n)) => ∀ thread ∈ s.threads[n]?,
    match thread with
    | .step op _ => s.fits op
    | .done _ => True
  | .device (.task (.write e)) => ∀ id ∈ s.writer.working,e.saves (s.ctx.urls id) = true →
    (s.ctx.urls id).cacheFlg.homepagePoll = false
  | .device (.data n .server env pkts token) => ∀ id ∈ (s.cons n).conUrl,s.stored id ≠ none →
    ∀ text ∈ (s.cons n).reads ⟨env,s.ctx,pkts,token⟩ .server,∀ type ∈ responseType text,(s.cons n).postFix = true →
      P.mimeOf type = (s.ctx.urls id).mimePostfix
  | .store m => ∀ k ∈ mapUriUrlId m.args,∀ small : k < httpSpUrlMax,0 ∉ (s.ctx.urls ⟨k,small⟩).urlBuf ∧
    (s.ctx.urls ⟨k,small⟩).mimePostfix = [] ∧ (s.ctx.urls ⟨k,small⟩).cacheFlg.homepagePoll = false
  | _ => True

section mime
variable {P : Platform} {con : Con} {ctx : Ctx} {id : UrlId} {token : Nat} {arrived : List EfBuf}

structure Suffixed (P : Platform) (con : Con) (text : Option Bytes) (mime : Bytes) : Prop where
  type : ∃ body type,text = some body ∧ responseType body = some type ∧ mime = P.mimeOf type
  flag : con.postFix = true

theorem headerMime (P : Platform) (con : Con) (ctx : Ctx) (id : UrlId) (token : Nat) :
    ((responseHeader P con ctx id token).ctx.urls id).mimePostfix = (ctx.urls id).mimePostfix ∨
    Suffixed P con (some (cstr con.resBuf)) ((responseHeader P con ctx id token).ctx.urls id).mimePostfix := by
  cases known : responseType (cstr con.resBuf) with
  | none =>
    rw [headerRefused known]
    exact Or.inl rfl
  | some type =>
    rw [headerTyped known,typedMime]
    unfold typeMarked
    cases flag : con.postFix with
    | false => exact Or.inl rfl
    | true =>
      rw [if_pos rfl,modifySelf]
      exact Or.inr ⟨⟨_,type,rfl,known,rfl⟩,flag⟩

theorem initMime (P : Platform) (con : Con) (ctx : Ctx) (id : UrlId) (arrived : List EfBuf) (token : Nat)
    (starts : con.resState = .init ∨ con.resState = .initData) :
    ((responseInit P con ctx id arrived token).ctx.urls id).mimePostfix = (ctx.urls id).mimePostfix ∨
    Suffixed P con (responseText con arrived) ((responseInit P con ctx id arrived token).ctx.urls id).mimePostfix := by
  cases found : strstr (responseBuf con arrived) httpEnd with
  | none =>
    rcases Nat.lt_or_ge (responseBuf con arrived).length (httpSpResHeadLenMax - 1) with short | long
    · rw [responsePart found short]
      exact Or.inl rfl
    · rw [responseLong found long]
      exact Or.inl rfl
  | some k =>
    rw [responseWhole found,responseTextInit starts,found]
    refine (headerMime P (con.framed arrived k) ctx id token).imp_right fun ⟨type,flag⟩ => ⟨type,?_⟩
    rwa [show (con.framed arrived k).postFix = con.postFix from beginPostFix con] at flag

theorem statesMime (P : Platform) (con : Con) (ctx : Ctx) (id : UrlId) (arrived : List EfBuf) (token : Nat) :
    ((responseStates P con ctx id arrived token).ctx.urls id).mimePostfix = (ctx.urls id).mimePostfix ∨
    Suffixed P con (responseText con arrived) ((responseStates P con ctx id arrived token).ctx.urls id).mimePostfix := by
  unfold responseStates
  cases state : con.resState with
  | init => exact initMime P con ctx id arrived token (Or.inl state)
  | initData => exact initMime P con ctx id arrived token (Or.inr state)
  | requestHeader =>
    have text : responseText con arrived = some (cstr con.resBuf) := by
      unfold responseText
      rw [state]
    rw [text]
    exact headerMime P con ctx id token
  | done =>
    have flagged : Plain id ctx (responseDone { con := con,ctx := ctx } id).ctx := plainFlags rfl
    exact Or.inl flagged.mime
  | dataLine => exact Or.inl (dataPlain P con ctx id token).mime
  | requestHeaderError | requestHeaderData | dataLineData | headerError | dataError => exact Or.inl rfl

theorem replyMime (P : Platform) (con : Con) (a : Arrival) (id : UrlId) (owner : con.conUrl = some id) :
    ((ngxHttpSnoopingResponseParse P con a.ctx a.pkts a.token).ctx.urls id).mimePostfix = (a.ctx.urls id).mimePostfix ∨
    Suffixed P con (con.reads a .server)
      ((ngxHttpSnoopingResponseParse P con a.ctx a.pkts a.token).ctx.urls id).mimePostfix := by
  have owner' : (con.enqueueResponse a.pkts).conUrl = some id := owner
  have flag : (con.enqueueResponse a.pkts).postFix = con.postFix := rfl
  unfold Con.reads ngxHttpSnoopingResponseParse
  dsimp only
  generalize con.enqueueResponse a.pkts = con' at owner' flag ⊢
  split
  · exact Or.inl rfl
  · rename_i live
    rw [owner']
    dsimp only
    split
    · exact Or.inl rfl
    · rename_i valid
      have reads : ¬(con'.responsePktChain.count = 0 ∨ a.token = 0 ∨ some id = none ∨ con'.reqState = .requestHeaderError) := by
        rintro (empty | zero | none_ | bad)
        · exact live (Or.inl empty)
        · exact live (Or.inr zero)
        · cases none_
        · exact valid bad
      rw [(discardSame _ id).2.1,if_neg reads]
      refine (statesMime P con' a.ctx id a.pkts a.token).imp_right fun ⟨type,on⟩ => ⟨type,flag.symm.trans on⟩

end mime

section run
variable {P : Platform} {s : Shelf} {id : UrlId}

structure Filed (s : Shelf) : Prop where
  ruled : ∀ id,(s.ctx.urls id).urlFlags.res = true → (s.ctx.urls id).pcacheRule.isSome = true
  path : ∀ id path,s.stored id = some path → path = redirectPath (s.ctx.urls id)
  marked : ∀ id,(s.ctx.urls id).urlFlags.resWrite = true ∨ (s.ctx.urls id).urlFlags.ngxDown = true → s.stored id ≠ none

structure Lasts (s : Shelf) (id : UrlId) (e : WorldEvent) (entry : UrlEntry) : Prop where
  ruled : entry.urlFlags.res = true → entry.pcacheRule.isSome = true
  named : tenure entry = tenure (s.ctx.urls id) → (s.stored id ≠ none ∨ s.wrote id e = true) →
    naming entry = naming (s.ctx.urls id)
  marked : entry.urlFlags.resWrite = true ∨ entry.urlFlags.ngxDown = true →
    tenure entry = tenure (s.ctx.urls id) ∧ (s.stored id ≠ none ∨ s.wrote id e = true)

theorem filedSame (filed : Filed s) (e : WorldEvent) {entry : UrlEntry} (named : naming entry = naming (s.ctx.urls id))
    (rule : entry.pcacheRule = (s.ctx.urls id).pcacheRule) (held : tenure entry = tenure (s.ctx.urls id))
    (flags : entry.urlFlags.resWrite = (s.ctx.urls id).urlFlags.resWrite ∧
      entry.urlFlags.ngxDown = (s.ctx.urls id).urlFlags.ngxDown) : Lasts s id e entry := by
  refine ⟨fun owned => ?_,fun _ _ => named,fun on => ⟨held,Or.inl (filed.marked id ?_)⟩⟩
  · rw [rule]
    exact filed.ruled id ((congrArg Prod.fst held).symm.trans owned)
  · rw [← flags.1,← flags.2]
    exact on

theorem takenLasts (e : WorldEvent) {fill held : UrlEntry → UrlEntry}
    (fills : ∀ e,(fill e).urlFlags = { res := true } ∧ (fill e).pcacheRule.isSome = true)
    (holds : ∀ e,(held e).tenancy = e.tenancy ∧ (held e).pcacheRule = e.pcacheRule ∧
      (held e).urlFlags.resWrite = e.urlFlags.resWrite ∧ (held e).urlFlags.ngxDown = e.urlFlags.ngxDown) :
    Lasts s id e (putEntry none fill held (s.ctx.urls id)) := by
  obtain ⟨flags,rule⟩ := fills (s.ctx.urls id)
  obtain ⟨tenancy,same,write,down⟩ := holds ((s.ctx.urls id).taken fill)
  have off : (((s.ctx.urls id).taken fill).urlFlags.resWrite = false) ∧
      (((s.ctx.urls id).taken fill).urlFlags.ngxDown = false) := by
    unfold UrlEntry.taken UrlEntry.setFlags UrlEntry.lease
    dsimp only
    rw [flags]
    exact ⟨rfl,rfl⟩
  refine ⟨fun _ => ?_,fun held_ => ?_,fun on => ?_⟩
  · exact same ▸ rule
  · have count : (held ((s.ctx.urls id).taken fill)).tenancy = (s.ctx.urls id).tenancy := congrArg Prod.snd held_
    exact absurd (tenancy.symm.trans count) (Nat.succ_ne_self _)
  · rcases on with on | on
    · cases (write.trans off.1).symm.trans on
    · cases (down.trans off.2).symm.trans on

theorem opLasts (filed : Filed s) {op : TableOp} (mine : op.target s.ctx = some id) (fits : s.fits op) (n : Nat) :
    Lasts s id (.task (.advance n)) (op.entry s.ctx (s.ctx.urls id)) := by
  have none_ (content : s.stored id ≠ none ∨ s.wrote id (.task (.advance n)) = true) : s.stored id ≠ none :=
    content.resolve_right Bool.false_ne_true
  cases op with
  | find key => cases mine
  | addNew rule key name =>
    change Lasts s id _ (putEntry none (addFill s.ctx.serverAddr rule key) (addHeld s.ctx.jiffies name) (s.ctx.urls id))
    refine takenLasts _ (fun _ => ?_) fun _ => ?_
    · exact ⟨rfl,rfl⟩
    · exact ⟨rfl,rfl,rfl,rfl⟩
  | addMore id => exact filedSame filed _ rfl rfl rfl ⟨rfl,rfl⟩
  | delete id => exact filedSame filed _ rfl rfl rfl ⟨rfl,rfl⟩
  | youkuPut found rule key name =>
    obtain ⟨rfl,content,file⟩ := fits id mine
    refine ⟨filed.ruled id,fun _ _ => ?_,fun _ => ⟨rfl,Or.inl content⟩⟩
    have url := holdUrl (s.ctx.urls id) name
    exact Prod.ext ((congrArg (fileFor (s.ctx.urls id)) url).trans file) rfl
  | youkuQueue id => exact filedSame filed _ rfl rfl rfl ⟨rfl,rfl⟩
  | recordNew rule key server path =>
    change Lasts s id _ (putEntry none (recordFill s.ctx.jiffies rule key) (recordHeld server path) (s.ctx.urls id))
    refine takenLasts _ (fun _ => ?_) fun _ => ?_
    · exact ⟨rfl,rfl⟩
    · exact ⟨rfl,rfl,rfl,rfl⟩
  | recordQueue id' =>
    cases Option.some.inj mine
    refine ⟨filed.ruled id,fun _ content => ?_,fun on => ⟨rfl,Or.inl (filed.marked id on)⟩⟩
    exact Prod.ext rfl (Prod.ext (fits (none_ content)).symm rfl)
  | setby id' state =>
    unfold TableOp.target at mine
    dsimp only at mine
    by_cases owned : (s.ctx.urls id').urlFlags.res = true
    · rw [if_pos owned] at mine
      cases Option.some.inj mine
      cases state with
      | ok => exact ⟨filed.ruled id,fun _ _ => rfl,fun _ => ⟨rfl,Or.inl (fits rfl owned)⟩⟩
      | error => exact filedSame filed _ rfl rfl rfl ⟨rfl,rfl⟩
      | init => exact filedSame filed _ rfl rfl rfl ⟨rfl,rfl⟩
      | ing => exact filedSame filed _ rfl rfl rfl ⟨rfl,rfl⟩
    · rw [if_neg owned] at mine
      cases mine

theorem fateLasts (filed : Filed s) {e : WorldEvent} {entry : UrlEntry} (fate : Fate s.toWorld id e entry)
    (careful : s.careful P (.device e))
    (mime : ∀ n env pkts token,e = .data n .server env pkts token → (s.cons n).conUrl = some id → s.stored id ≠ none →
      entry.mimePostfix = (s.ctx.urls id).mimePostfix) : Lasts s id e entry := by
  cases fate with
  | same => exact filedSame filed e rfl rfl rfl ⟨rfl,rfl⟩
  | @mapped n op rest thread mine => exact opLasts filed mine (careful _ thread) n
  | @touched e entry touched =>
    obtain ⟨title,traits,write,_⟩ := touched
    have held : tenure entry = tenure (s.ctx.urls id) := congrArg (fun t : Title => (t.res,t.tenancy)) title
    have url : entry.urlBuf = (s.ctx.urls id).urlBuf := congrArg (fun t : Title => t.serverName ++ t.resUrl) title
    have rule : entry.pcacheRule = (s.ctx.urls id).pcacheRule := congrArg Title.pcacheRule title
    have down : entry.urlFlags.ngxDown = (s.ctx.urls id).urlFlags.ngxDown := congrArg (·.2.2) traits
    have suffix : entry.mimePostfix = (s.ctx.urls id).mimePostfix := congrArg (·.1) traits
    refine ⟨fun owned => ?_,fun _ _ => namingSame url suffix rule,fun on => ⟨held,?_⟩⟩
    · rw [rule]
      exact filed.ruled id ((congrArg Prod.fst held).symm.trans owned)
    · rcases on with wrote | downed
      · rcases write wrote with before | downed | saved
        · exact Or.inl (filed.marked id (Or.inl before))
        · exact Or.inl (filed.marked id (Or.inr downed))
        · exact Or.inr saved
      · exact Or.inl (filed.marked id (Or.inr (down.symm.trans downed)))
  | removed hand due => exact ⟨nofun,fun _ _ => rfl,nofun⟩
  | @recorded n env pkts token text head rule key live read known get target mine =>
    rcases recordCases mine with ⟨_,entry⟩ | ⟨_,_,_,entry⟩
    · rw [entry]
      exact filedSame filed _ rfl rfl rfl ⟨rfl,rfl⟩
    · rw [entry]
      change Lasts s id _ (putEntry none (recordFill s.ctx.jiffies rule key)
        (fun e => recordQueued (recordHeld head.serverName head.resUrl e)) (s.ctx.urls id))
      exact takenLasts _ (fun _ => ⟨rfl,rfl⟩) fun _ => ⟨rfl,rfl,rfl,rfl⟩
  | @replied n entry env pkts token live owner kept =>
    have core : entry.core = (s.ctx.urls id).core := congrArg Prod.fst kept
    have served : entry.served = (s.ctx.urls id).served := congrArg Prod.snd kept
    have rule : entry.pcacheRule = (s.ctx.urls id).pcacheRule := congrArg Core.pcacheRule core
    have held : tenure entry = tenure (s.ctx.urls id) := congrArg (fun c : Core => (c.place.res,c.tenancy)) core
    refine ⟨fun owned => ?_,fun _ content => ?_,fun on => ⟨held,Or.inl (filed.marked id ?_)⟩⟩
    · rw [rule]
      exact filed.ruled id ((congrArg Prod.fst held).symm.trans owned)
    · have suffix := mime n env pkts token rfl owner (content.resolve_right Bool.false_ne_true)
      exact namingSame (coreUrl core).1 suffix rule
    · exact on.imp (congrArg Served.resWrite served).symm.trans (congrArg Served.ngxDown served).symm.trans
  | shut frees owner => exact filedSame filed _ rfl rfl rfl ⟨rfl,rfl⟩
  | heard known mine waits => exact filedSame filed _ rfl rfl rfl ⟨rfl,rfl⟩

theorem serverMime {t : World} {n : Nat} {env : ReplyEnv} {pkts : List EfBuf} {token : Nat}
    (careful : s.careful P (.device (.data n .server env pkts token)))
    (moved : WorldMove P s.toWorld (.data n .server env pkts token) t) (owner : (s.cons n).conUrl = some id)
    (content : s.stored id ≠ none) : (t.ctx.urls id).mimePostfix = (s.ctx.urls id).mimePostfix := by
  cases moved with
  | data side env pkts token live =>
    rcases replyMime P (s.cons n) ⟨env,s.ctx,pkts,token⟩ id owner with same | ⟨⟨text,type,read,known,mime⟩,flag⟩
    · exact same
    · exact mime.trans (careful id owner content text read type known flag)

theorem deviceFiled (filed : Filed s) {t : Shelf} {e : WorldEvent} (careful : s.careful P (.device e))
    (moved : WorldMove P s.toWorld e t.toWorld) (kept : ∀ id,t.stored id = s.kept e t.toWorld id) : Filed t := by
  have lasts (id : UrlId) : Lasts s id e (t.ctx.urls id) := by
    refine fateLasts filed (worldFate moved id) careful fun n env pkts token event owner content => ?_
    subst event
    exact serverMime careful moved owner content
  refine ⟨fun id => (lasts id).ruled,fun id path content => ?_,fun id on => ?_⟩
  · rw [kept,Shelf.kept] at content
    split at content <;> try contradiction
    rename_i held
    have named := (lasts id).named (not_not.mp held)
    split at content
    · rename_i wrote
      have plain : (s.ctx.urls id).cacheFlg.homepagePoll = false := by
        unfold Shelf.wrote at wrote
        split at wrote <;> try contradiction
        obtain ⟨hand,saves⟩ := Bool.and_eq_true_iff.mp wrote
        exact careful id (beq_iff_eq.mp hand) saves
      rw [redirectSame (named (Or.inr wrote)),redirectPath,plain]
      exact (Option.some.inj content).symm
    · rw [redirectSame (named (Or.inl (by rw [content]; exact Option.some_ne_none _)))]
      exact filed.path id path content
  · obtain ⟨held,content⟩ := (lasts id).marked on
    rw [kept,Shelf.kept,if_neg (not_not.mpr held)]
    split
    · exact Option.some_ne_none _
    · rename_i other
      exact content.resolve_right other

theorem storeFiled (filed : Filed s) {m : Mapping} {name : Bytes} (careful : s.careful P (.store m))
    (mapped : storeName s.ctx.urls m = some name) : Filed { s with
      stored := fun id => if mapUriUrlId m.args = some id.val then some (cstr name) else s.stored id } := by
  refine ⟨filed.ruled,fun id path content => ?_,fun id on => ?_⟩
  · dsimp only at content
    split at content
    · rename_i mine
      obtain ⟨clean,suffix,plain⟩ := careful id.val mine id.isLt
      unfold storeName at mapped
      split at mapped <;> try contradiction
      rw [mine,Option.bind_some,ngxHttpSpId2fpath,dif_pos id.isLt] at mapped
      dsimp only at mapped
      split at mapped <;> try contradiction
      rename_i owned
      obtain ⟨rule,some_⟩ := Option.isSome_iff_exists.mp (filed.ruled id owned)
      cases Option.some.inj content
      cases Option.some.inj mapped
      unfold redirectPath localPath fileFor
      dsimp only at clean suffix plain ⊢
      rw [plain,suffix,some_,cstrOfNoNul clean]
      simp
    · exact filed.path id path content
  · dsimp only
    split
    · exact Option.some_ne_none _
    · exact filed.marked id on

theorem filedStep (filed : Filed s) {t : Shelf} {e : ShelfEvent} (careful : s.careful P e) (next : s.step P e = some t) :
    Filed t := by
  cases e with
  | device e =>
    obtain ⟨world,moved,same⟩ := Option.map_eq_some_iff.mp next
    subst same
    exact deviceFiled filed careful (worldSteps moved) fun _ => rfl
  | store m =>
    obtain ⟨name,mapped,same⟩ := Option.map_eq_some_iff.mp next
    subst same
    exact storeFiled filed careful mapped

theorem filedLocated (filed : Filed s) : s.located := by
  intro id on
  obtain ⟨path,content⟩ := Option.ne_none_iff_exists'.mp (filed.marked id (Or.inl on))
  refine ⟨path,content,fun P con resUrl => ?_⟩
  rw [filed.path id path content]
  exact redirectNames P con _ resUrl

theorem filedStart (jiffies : Nat) : Filed (Shelf.start jiffies) := by
  refine ⟨nofun,fun _ _ => nofun,fun _ on => ?_⟩
  rcases on with on | on <;> cases on

/-- In every careful run, a redirect to a stored entry names the path that its content was stored under. -/
theorem redirectsStored (P : Platform) (jiffies : Nat) {events : List ShelfEvent}
    (careful : Along (Shelf.step P) (fun s e _ => s.careful P e) (.start jiffies) events) :
    Along (Shelf.step P) (fun _ _ t => t.located) (.start jiffies) events := by
  refine alongInvariant (I := Filed) (fun filed careful next => ?_) (filedStart jiffies) careful
  have after := filedStep filed careful next
  exact ⟨after,filedLocated after⟩

end run

section scripts

instance decidableFits (s : Shelf) : DecidablePred s.fits
  | .youkuPut _ _ _ _ => decidableNamed _ _
  | .recordQueue _ => inferInstanceAs (Decidable (_ → _))
  | .setby _ _ => inferInstanceAs (Decidable (_ → _ → _))
  | .find _ | .addNew _ _ _ | .addMore _ | .delete _ | .youkuQueue _ | .recordNew _ _ _ _ => .isTrue trivial

instance decidableAdvanced (s : Shelf) (thread : TableProg) : Decidable (match thread with
    | .step op _ => s.fits op
    | .done _ => True) :=
  match thread with
  | .step op _ => decidableFits s op
  | .done _ => .isTrue trivial

instance decidableStoring (P : Platform) (s : Shelf) : DecidablePred (s.careful P)
  | .device (.task (.advance n)) => inferInstanceAs (Decidable (∀ thread ∈ s.threads[n]?,_))
  | .device (.task (.write _)) => decidableNamed _ _
  | .device (.data _ .server _ _ _) => decidableNamed _ _
  | .store m => inferInstanceAs (Decidable (∀ k ∈ mapUriUrlId m.args,∀ _ : k < httpSpUrlMax,_ ∧ _ ∧ _))
  | .device (.task (.call _)) | .device (.task (.clock _)) | .device (.task (.config _)) | .device (.create _ _ _)
  | .device (.data _ .client _ _ _) | .device (.shut _ _) | .device (.answer _ _) | .device (.receive _) | .device .torn => .isTrue trivial

def filmUrl (place : String) : Bytes := ascii place ++ ascii "/x.flv"

def filmStored : List ShelfEvent :=
  (alone 0 2 (.handle (filmUrl "10.0.0.1/youku/a") .add)).map .device ++
    .store { movieRequest (ascii "/getfile") with args := filmUrl "10.0.0.1/youku/a" ++ ascii "?urlID=32767" } ::
    (alone 1 1 (.setbyId 32767 .ok) ++ passWith [.log,.remove]).map .device

def filmAgain (place : String) : List ShelfEvent := (alone 2 2 (.youku (filmUrl place))).map .device

theorem filmLocated : Along (Shelf.step testPlatform) (fun _ _ t => t.located) (.start 0)
    (filmStored ++ filmAgain "10.0.0.1/youku/a") :=
  redirectsStored testPlatform 0 (by decide)

theorem filmMoved : (run (Shelf.step testPlatform) (.start 0) (filmStored ++ (filmAgain "10.0.0.2/youku/b").dropLast)).bind (fun s =>
    (s.step testPlatform (.device (.task (.advance 2)))).map fun t => ((t.ctx.urls 32767).urlFlags.resWrite,
      t.stored 32767,redirectPath (t.ctx.urls 32767))) =
    some (true,some (ascii "10_0_0_1/youku_a_x.flv"),ascii "10_0_0_2/youku_b_x.flv") := by
  decide +kernel

theorem filmLost : ¬Along (Shelf.step testPlatform) (fun _ _ t => t.located) (.start 0)
    (filmStored ++ (filmAgain "10.0.0.2/youku/b").dropLast ++ [.device (.task (.advance 2))]) := by
  intro all
  obtain ⟨s,path,rest⟩ := Option.bind_eq_some_iff.mp filmMoved
  obtain ⟨t,next,last⟩ := Option.map_eq_some_iff.mp rest
  injection last with on last
  injection last with content moved
  obtain ⟨name,stored,names⟩ := (alongRest all path t next).1 32767 on
  cases content.symm.trans stored
  have same := names testPlatform {} []
  rw [redirectNames,moved] at same
  have apart := List.append_cancel_left (List.append_cancel_right (List.append_cancel_right same))
  exact absurd apart (by decide)

end scripts

end MipsElfExec.Getfile

import MipsElfExec.Snooping.Effect
import MipsElfExec.Snooping.Owner

/-! The whole device: the table under its callers and the write task, the proxied
connections, and the datagrams to and from the server, one step at a time. -/
namespace MipsElfExec.Snooping
open CString MipsElfExec.Ring Section Run

structure Sp2cRes where
  sessionId : Nat
  status : Nat
  deriving DecidableEq, Repr

def httpSpStatusOk : Nat := 0

def ngxHttpSp2cRecProcess (ctx : Ctx) (pkt : Option Sp2cRes) : Ctx :=
  match pkt with
  | none => ctx
  | some pkt =>
    if pkt.status ≠ httpSpStatusOk then ctx
    else if small : pkt.sessionId < httpSpUrlMax then
      if (ctx.urls ⟨pkt.sessionId,small⟩).urlFlags.ngxWaitResponse then
        ctx.setFlags ⟨pkt.sessionId,small⟩ ({ · with ngxWaitResponse := false,ngxParseOk := true })
      else ctx
    else ctx

structure Answer where
  request : Nat
  status : Nat
  deriving DecidableEq, Repr

-- `calls` says what each thread was started for; no datagram that was sent is forgotten.
structure World extends Tasks where
  calls : List TableCall := []
  cons : Nat → Con := fun _ => {}
  requests : List Sp2cReq := []
  answers : List Answer := []

inductive WorldEvent where
  | task (e : TaskEvent)
  | create (n clientAddr localServerAddr : Nat)
  | data (n : Nat) (side : Side) (env : ReplyEnv) (pkts : List EfBuf) (token : Nat)
  | shut (n : Nat) (side : Side)
  | answer (k status : Nat)
  | receive (k : Nat)
  | torn

def Tasks.out (hz : Nat) (s : Tasks) : TaskEvent → Option WriterOut
  | .write e => (ngxHttpSnoopingWriteProcess hz s.ctx s.writer e).bind fun (_,_,out) => out
  | _ => none

def asked : Option WriterOut → List Sp2cReq
  | some (.send req) => [req]
  | _ => []

def started : TaskEvent → List TableCall
  | .call c => [c]
  | _ => []

def World.start (jiffies : Nat) : World := { Tasks.start jiffies with }

def World.answered (s : World) (k : Nat) : Option (Sp2cReq × Nat) :=
  (s.answers[k]?).bind fun a => (s.requests[a.request]?).map fun req => (req,a.status)

-- Blocks are taken off the free list only, and data comes for those in use. An answer may come
-- late, more than once, out of order or never, and a datagram may be cut short.
def World.step (P : Platform) (s : World) : WorldEvent → Option World
  | .task e => (s.toTasks.step P.hz e).map fun t =>
      { s with toTasks := t,calls := s.calls ++ started e,requests := s.requests ++ asked (s.toTasks.out P.hz e) }
  | .create n clientAddr localServerAddr =>
    if (s.cons n).conFlags then none
    else some { s with cons := Function.update s.cons n (ngxHttpSnoopingCreate (s.cons n) clientAddr localServerAddr) }
  | .data n side env pkts token =>
    if (s.cons n).conFlags then
      let o := ngxHttpSnoopingData P env (s.cons n) s.ctx side pkts token
      some { s with ctx := o.ctx,cons := Function.update s.cons n o.con }
    else none
  | .shut n side =>
    if (s.cons n).conFlags then
      let last := ngxHttpSnoopingShut (s.cons n) s.ctx side
      some { s with ctx := last.2,cons := Function.update s.cons n last.1 }
    else none
  | .answer k status => (s.requests[k]?).map fun _ => { s with answers := s.answers ++ [⟨k,status⟩] }
  | .receive k => (s.answered k).map fun (req,status) =>
      { s with ctx := ngxHttpSp2cRecProcess s.ctx (some ⟨req.sessionId,status⟩) }
  | .torn => some { s with ctx := ngxHttpSp2cRecProcess s.ctx none }

section steps
variable {P : Platform} {s t : World}

def World.table (s : World) (ctx : Ctx) : World := { s with ctx := ctx }

def World.turn (s : World) (n : Nat) (con : Con) (ctx : Ctx) : World :=
  { s with ctx := ctx,cons := Function.update s.cons n con }

inductive WorldMove (P : Platform) (s : World) : WorldEvent → World → Prop where
  | call (c : TableCall) :
    WorldMove P s (.task (.call c)) { s with threads := s.threads ++ [c.prog],calls := s.calls ++ [c] }
  | section_ {n op rest} (thread : s.threads[n]? = some (.step op rest)) : WorldMove P s (.task (.advance n))
      { s.table (op.exec s.ctx).2 with threads := s.threads.set n (rest (op.exec s.ctx).1) }
  | write {e ctx w out} (wrote : ngxHttpSnoopingWriteProcess P.hz s.ctx s.writer e = some (ctx,w,out)) :
    WorldMove P s (.task (.write e)) { s.table ctx with writer := w,requests := s.requests ++ asked out }
  | clock (jiffies : Nat) : WorldMove P s (.task (.clock jiffies)) (s.table { s.ctx with jiffies := jiffies })
  | config (serverAddr : Nat) : WorldMove P s (.task (.config serverAddr)) (s.table { s.ctx with serverAddr := serverAddr })
  | create {n} (clientAddr localServerAddr : Nat) (free : (s.cons n).conFlags = false) :
    WorldMove P s (.create n clientAddr localServerAddr)
      (s.turn n (ngxHttpSnoopingCreate (s.cons n) clientAddr localServerAddr) s.ctx)
  | data {n} (side : Side) (env : ReplyEnv) (pkts : List EfBuf) (token : Nat) (live : (s.cons n).conFlags = true) :
    WorldMove P s (.data n side env pkts token)
      (s.turn n (ngxHttpSnoopingData P env (s.cons n) s.ctx side pkts token).con
        (ngxHttpSnoopingData P env (s.cons n) s.ctx side pkts token).ctx)
  | shut {n} (side : Side) (live : (s.cons n).conFlags = true) : WorldMove P s (.shut n side)
      (s.turn n (ngxHttpSnoopingShut (s.cons n) s.ctx side).1 (ngxHttpSnoopingShut (s.cons n) s.ctx side).2)
  | answer {k req} (status : Nat) (known : s.requests[k]? = some req) :
    WorldMove P s (.answer k status) { s with answers := s.answers ++ [⟨k,status⟩] }
  | receive {k req status} (known : s.answered k = some (req,status)) : WorldMove P s (.receive k)
      (s.table (ngxHttpSp2cRecProcess s.ctx (some ⟨req.sessionId,status⟩)))
  | torn : WorldMove P s .torn s

theorem worldSteps {e : WorldEvent} (next : s.step P e = some t) : WorldMove P s e t := by
  cases e with
  | task e =>
    obtain ⟨tasks,moved,same⟩ := Option.map_eq_some_iff.mp next
    cases e with
    | call c =>
      cases Option.some.inj moved
      subst same
      have quiet : s.requests ++ asked (s.toTasks.out P.hz (.call c)) = s.requests := List.append_nil _
      rw [quiet]
      exact .call c
    | advance n =>
      obtain ⟨⟨ctx,threads⟩,stepped,again⟩ := Option.map_eq_some_iff.mp moved
      obtain ⟨op,rest,thread,rfl,rfl⟩ := advanceSection stepped
      subst again same
      have quiet : s.requests ++ asked (s.toTasks.out P.hz (.advance n)) = s.requests := List.append_nil _
      have none_ : s.calls ++ started (.advance n) = s.calls := List.append_nil _
      rw [quiet,none_]
      exact .section_ thread
    | write e =>
      obtain ⟨⟨ctx,writer,out⟩,wrote,again⟩ := Option.map_eq_some_iff.mp moved
      subst again same
      have said : s.toTasks.out P.hz (.write e) = out := by
        unfold Tasks.out
        dsimp only
        rw [wrote]
        rfl
      have none_ : s.calls ++ started (.write e) = s.calls := List.append_nil _
      rw [said,none_]
      exact .write wrote
    | clock jiffies =>
      cases Option.some.inj moved
      subst same
      have quiet : s.requests ++ asked (s.toTasks.out P.hz (.clock jiffies)) = s.requests := List.append_nil _
      have none_ : s.calls ++ started (.clock jiffies) = s.calls := List.append_nil _
      rw [quiet,none_]
      exact .clock jiffies
    | config serverAddr =>
      cases Option.some.inj moved
      subst same
      have quiet : s.requests ++ asked (s.toTasks.out P.hz (.config serverAddr)) = s.requests := List.append_nil _
      have none_ : s.calls ++ started (.config serverAddr) = s.calls := List.append_nil _
      rw [quiet,none_]
      exact .config serverAddr
  | create n clientAddr localServerAddr =>
    unfold World.step at next
    dsimp only at next
    split at next <;> try contradiction
    rename_i free
    cases Option.some.inj next
    exact .create clientAddr localServerAddr (Bool.eq_false_of_not_eq_true free)
  | data n side env pkts token =>
    unfold World.step at next
    dsimp only at next
    split at next <;> try contradiction
    rename_i live
    cases Option.some.inj next
    exact .data side env pkts token live
  | shut n side =>
    unfold World.step at next
    dsimp only at next
    split at next <;> try contradiction
    rename_i live
    cases Option.some.inj next
    exact .shut side live
  | answer k status =>
    obtain ⟨req,known,same⟩ := Option.map_eq_some_iff.mp next
    subst same
    exact .answer status known
  | receive k =>
    obtain ⟨⟨req,status⟩,known,same⟩ := Option.map_eq_some_iff.mp next
    subst same
    exact .receive known
  | torn =>
    cases Option.some.inj next
    exact .torn

inductive Fate (s : World) (id : UrlId) : WorldEvent → UrlEntry → Prop where
  | same (e : WorldEvent) : Fate s id e (s.ctx.urls id)
  | mapped {n op rest} (thread : s.threads[n]? = some (.step op rest)) (mine : op.target s.ctx = some id) :
    Fate s id (.task (.advance n)) (op.entry s.ctx (s.ctx.urls id))
  | touched {e entry} (touched : Touched (s.writer.working == some id && e.saves (s.ctx.urls id))
      (s.writer.working == some id && e.tells) (s.ctx.urls id) entry) : Fate s id (.task (.write e)) entry
  | removed {i} (hand : s.writer = .removing i id) (due : (s.ctx.urls id).urlAction = some .delete) :
    Fate s id (.task (.write .remove)) ((s.ctx.urls id).setFlags fun _ => {})
  | recorded {n env pkts token text head rule key} (live : (s.cons n).conFlags = true)
    (read : (s.cons n).reads ⟨env,s.ctx,pkts,token⟩ .client = some text) (known : requestHead text = some head)
    (get : head.method = .get) (target : recordTarget head.serverName head.resUrl = some (rule,key))
    (mine : recordResult s.ctx rule key = some id) : Fate s id (.data n .client env pkts token)
      (recordEntry s.ctx rule key head.serverName head.resUrl (s.ctx.urls id))
  | replied {n entry} (env : ReplyEnv) (pkts : List EfBuf) (token : Nat) (live : (s.cons n).conFlags = true)
    (owner : (s.cons n).conUrl = some id) (kept : entry.kept = (s.ctx.urls id).kept) :
    Fate s id (.data n .server env pkts token) entry
  | shut {n side} (frees : (s.cons n).frees side = true) (owner : (s.cons n).conUrl = some id) :
    Fate s id (.shut n side) ((s.ctx.urls id).setFlags ({ · with resCache := true }))
  | heard {k req} (known : s.answered k = some (req,httpSpStatusOk)) (mine : req.sessionId = id)
    (waits : (s.ctx.urls id).urlFlags.ngxWaitResponse = true) :
    Fate s id (.receive k) ((s.ctx.urls id).setFlags ({ · with ngxWaitResponse := false,ngxParseOk := true }))

theorem requestFate {n : Nat} {env : ReplyEnv} {pkts : List EfBuf} {token : Nat} (live : (s.cons n).conFlags = true)
    (id : UrlId) : Fate s id (.data n .client env pkts token)
      ((ngxHttpSnoopingRequestParse P env (s.cons n) s.ctx pkts token).ctx.urls id) := by
  have filed := requestFiled P (s.cons n) ⟨env,s.ctx,pkts,token⟩
  dsimp only at filed
  generalize ngxHttpSnoopingRequestParse P env (s.cons n) s.ctx pkts token = o at filed ⊢
  cases filed with
  | waits none_ url table => exact table ▸ .same _
  | bad read bad url table => exact table ▸ .same _
  | bodied read known other url table => exact table ▸ .same _
  | @recorded text head hash read known get url table =>
    rw [table]
    cases target : recordTarget head.serverName head.resUrl with
    | none =>
      have quiet := @recordNone s.ctx head.serverName head.resUrl target
      dsimp only
      rw [quiet]
      exact .same _
    | some filing_ =>
      obtain ⟨rule,key⟩ := filing_
      have urls := (recordUrls target s.ctx).2 id
      dsimp only
      rw [urls]
      split
      · rename_i mine
        exact .recorded live read known get target mine
      · exact .same _

theorem responseFate {n : Nat} (env : ReplyEnv) {pkts : List EfBuf} {token : Nat} (live : (s.cons n).conFlags = true)
    (id : UrlId) : Fate s id (.data n .server env pkts token)
      ((ngxHttpSnoopingResponseParse P (s.cons n) s.ctx pkts token).ctx.urls id) := by
  have replied := responseCases P (s.cons n) s.ctx pkts token
  generalize ngxHttpSnoopingResponseParse P (s.cons n) s.ctx pkts token = o at replied ⊢
  cases replied with
  | wait => exact .same _
  | plain => exact .same _
  | @page owner o mine valid responded =>
    rw [(discardSame o owner).2.1]
    rcases Decidable.em (id = owner) with rfl | other
    · exact .replied env pkts token live mine (Prod.ext (responded.only.still.core id) responded.only.served)
    · rw [responded.only.others id other]
      exact .same _

theorem shutFate {n : Nat} (side : Side) (id : UrlId) :
    Fate s id (.shut n side) ((ngxHttpSnoopingShut (s.cons n) s.ctx side).2.urls id) := by
  cases frees : (s.cons n).frees side with
  | false =>
    rw [(@shutSame s.ctx (s.cons n) side frees).1]
    exact .same _
  | true =>
    rw [(@shutFrees s.ctx (s.cons n) side frees).2.2.2]
    cases mine : (s.cons n).conUrl with
    | none => exact .same _
    | some owner =>
      dsimp only
      rcases Decidable.em (id = owner) with rfl | other
      · rw [Ctx.setFlags,modifySelf]
        exact .shut frees mine
      · rw [Ctx.setFlags,modifyOther _ _ other]
        exact .same _

theorem heardFate {k : Nat} {req : Sp2cReq} {status : Nat} (known : s.answered k = some (req,status)) (id : UrlId) :
    Fate s id (.receive k) ((ngxHttpSp2cRecProcess s.ctx (some ⟨req.sessionId,status⟩)).urls id) := by
  unfold ngxHttpSp2cRecProcess
  dsimp only
  split
  · exact .same _
  · rename_i ok
    rw [dif_pos req.sessionId.isLt]
    split
    · rename_i waits
      rcases Decidable.em (id = req.sessionId) with rfl | other
      · rw [Ctx.setFlags,modifySelf]
        exact .heard (not_not.mp ok ▸ known) rfl waits
      · rw [Ctx.setFlags,modifyOther _ _ other]
        exact .same _
    · exact .same _

theorem worldFate {e : WorldEvent} (moved : WorldMove P s e t) (id : UrlId) : Fate s id e (t.ctx.urls id) := by
  cases moved with
  | call c => exact .same _
  | @section_ n op rest thread =>
    have urls : (op.exec s.ctx).2.urls id = _ := opEntry op s.ctx id
    change Fate s id _ ((op.exec s.ctx).2.urls id)
    rw [urls]
    split
    · rename_i mine
      exact .mapped thread mine
    · exact .same _
  | @write e ctx w out wrote =>
    change Fate s id _ (ctx.urls id)
    rcases writerTouches wrote with ⟨gone,⟨i,hand⟩,rfl,due,rfl⟩ | touched
    · rw [releaseUrls]
      split
      · rename_i same
        subst same
        exact .removed hand due
      · exact .same _
    · exact .touched (touched id)
  | clock jiffies => exact .same _
  | config serverAddr => exact .same _
  | create clientAddr localServerAddr free => exact .same _
  | data side env pkts token live =>
    cases side with
    | client => exact requestFate live id
    | server => exact responseFate env live id
  | shut side live => exact shutFate side id
  | answer status known => exact .same _
  | receive known => exact heardFate known id
  | torn => exact .same _

theorem dataLinked {con : Con} {ctx : Ctx} (P : Platform) (env : ReplyEnv) (side : Side) (pkts : List EfBuf) (token : Nat)
    (L : Linked ctx) : Linked (ngxHttpSnoopingData P env con ctx side pkts token).ctx := by
  have still {ctx'} (A : Alike ctx ctx') : Linked ctx' := L.imp fun _ => Exists.imp fun _ => listedAlike A
  cases side with
  | client =>
    have filed := requestFiled P con ⟨env,ctx,pkts,token⟩
    unfold ngxHttpSnoopingData
    dsimp only at filed ⊢
    generalize ngxHttpSnoopingRequestParse P env con ctx pkts token = o at filed ⊢
    cases filed with
    | waits none_ url table => exact table ▸ L
    | bad read bad url table => exact table ▸ L
    | bodied read known other url table => exact table ▸ L
    | @recorded text head hash read known get url table =>
      have recorded : Linked ((ngxHttpSnoopingUrlRecord head.serverName head.resUrl).exec ctx).2 :=
        runKeeps (I := Linked) (P := fun _ _ => True) (fun L _ => sectionLinked L _) L (meetsAll (fun _ _ => trivial) _ _)
      obtain ⟨res,hash',T⟩ := recorded
      have alike : Alike ((ngxHttpSnoopingUrlRecord head.serverName head.resUrl).exec ctx).2 o.ctx := by
        rw [table]
        exact ⟨rfl,rfl,rfl,rfl,rfl,rfl⟩
      exact ⟨res,hash',listedAlike alike T⟩
  | server => exact still (stillAlike (repliedStill (responseCases P con ctx pkts token)))

theorem worldLinked {e : WorldEvent} (moved : WorldMove P s e t) (L : Linked s.ctx) : Linked t.ctx := by
  have still {ctx'} (A : Alike s.ctx ctx') : Linked ctx' := L.imp fun _ => Exists.imp fun _ => listedAlike A
  cases moved with
  | call c => exact L
  | section_ thread => exact sectionLinked L _
  | write wrote => exact writerLinked L (writerSteps wrote)
  | clock jiffies => exact still ⟨rfl,rfl,rfl,rfl,rfl,rfl⟩
  | config serverAddr => exact still ⟨rfl,rfl,rfl,rfl,rfl,rfl⟩
  | create clientAddr localServerAddr free => exact L
  | data side env pkts token live => exact dataLinked P env side pkts token L
  | @shut n side live =>
    change Linked (ngxHttpSnoopingShut (s.cons n) s.ctx side).2
    cases frees : (s.cons n).frees side with
    | false =>
      rw [(@shutSame s.ctx (s.cons n) side frees).1]
      exact L
    | true =>
      rw [(@shutFrees s.ctx (s.cons n) side frees).2.2.2]
      cases (s.cons n).conUrl with
      | none => exact L
      | some id => exact still (stillAlike (stillFlags rfl))
  | answer status known => exact L
  | @receive k req status known =>
    change Linked (ngxHttpSp2cRecProcess s.ctx (some ⟨req.sessionId,status⟩))
    unfold ngxHttpSp2cRecProcess
    dsimp only
    split
    · exact L
    · rw [dif_pos req.sessionId.isLt]
      split
      · exact still (stillAlike (stillFlags rfl))
      · exact L
  | torn => exact L

def World.refers (s : World) (n : Nat) (id : UrlId) : Prop := (s.cons n).conFlags = true ∧ (s.cons n).conUrl = some id

def Con.files (con : Con) (a : Arrival) : Bool :=
  match (con.reads a .client).bind requestHead with
  | some head => head.method = .get
  | none => false

inductive Filing (s : World) (n : Nat) (id : UrlId) : WorldEvent → UrlEntry → Prop where
  | recorded {env pkts token text head rule key} (live : (s.cons n).conFlags = true)
    (read : (s.cons n).reads ⟨env,s.ctx,pkts,token⟩ .client = some text) (known : requestHead text = some head)
    (get : head.method = .get) (target : recordTarget head.serverName head.resUrl = some (rule,key))
    (mine : recordResult s.ctx rule key = some id) : Filing s n id (.data n .client env pkts token)
      (recordEntry s.ctx rule key head.serverName head.resUrl (s.ctx.urls id))

theorem dataRefers {n : Nat} {env : ReplyEnv} {pkts : List EfBuf} {token : Nat} {id : UrlId}
    (live : (s.cons n).conFlags = true) (url : (ngxHttpSnoopingRequestParse P env (s.cons n) s.ctx pkts token).con.conUrl = some id) :
    ((s.cons n).conUrl = some id ∧ (s.cons n).files ⟨env,s.ctx,pkts,token⟩ = false) ∨
      Filing s n id (.data n .client env pkts token)
        ((ngxHttpSnoopingRequestParse P env (s.cons n) s.ctx pkts token).ctx.urls id) := by
  have filed := requestFiled P (s.cons n) ⟨env,s.ctx,pkts,token⟩
  unfold Con.files
  dsimp only at filed
  generalize ngxHttpSnoopingRequestParse P env (s.cons n) s.ctx pkts token = o at filed url ⊢
  cases filed with
  | waits none_ same table =>
    rw [none_]
    rcases same with same | gone
    · exact Or.inl ⟨same.symm.trans url,rfl⟩
    · cases gone.symm.trans url
  | bad read bad gone table => cases gone.symm.trans url
  | bodied read known other same table =>
    rw [same] at url
    split at url <;> try contradiction
    rw [read,Option.bind_some,known]
    exact Or.inl ⟨url,decide_eq_false other⟩
  | @recorded text head hash read known get same table =>
    have filed := same.symm.trans url
    cases target : recordTarget head.serverName head.resUrl with
    | none =>
      have quiet := @recordNone s.ctx head.serverName head.resUrl target
      dsimp only at filed
      rw [quiet] at filed
      cases filed
    | some filing_ =>
      obtain ⟨rule,key⟩ := filing_
      obtain ⟨result,urls⟩ := recordUrls target s.ctx
      have mine := result.symm.trans filed
      have entry : o.ctx.urls id = recordEntry s.ctx rule key head.serverName head.resUrl (s.ctx.urls id) := by
        rw [table]
        exact (urls id).trans (if_pos mine)
      rw [entry]
      exact Or.inr (.recorded live read known get target mine)

theorem worldRefers {e : WorldEvent} {n : Nat} {id : UrlId} (moved : WorldMove P s e t) (refers : t.refers n id) :
    (s.refers n id ∧ ∀ env pkts token,e = .data n .client env pkts token →
      (s.cons n).files ⟨env,s.ctx,pkts,token⟩ = false) ∨ Filing s n id e (t.ctx.urls id) := by
  have other {m : Nat} {con : Con} {ctx : Ctx} (apart : n ≠ m) (after : (s.turn m con ctx).refers n id) : s.refers n id := by
    unfold World.turn World.refers at after
    dsimp only at after
    rwa [Function.update_of_ne apart] at after
  have mine {con : Con} {ctx : Ctx} (after : (s.turn n con ctx).refers n id) : con.conFlags = true ∧ con.conUrl = some id := by
    unfold World.turn World.refers at after
    dsimp only at after
    rwa [Function.update_self] at after
  cases moved with
  | @create m clientAddr localServerAddr free =>
    rcases Decidable.em (n = m) with rfl | apart
    · cases (mine refers).2
    · exact Or.inl ⟨other apart refers,nofun⟩
  | @data m side env pkts token live =>
    rcases Decidable.em (n = m) with rfl | apart
    · have url := (mine refers).2
      cases side with
      | client =>
        rcases dataRefers live url with ⟨same,none_⟩ | filing
        · refine Or.inl ⟨⟨live,same⟩,fun env' pkts' token' event => ?_⟩
          cases event
          exact none_
        · exact Or.inr filing
      | server => exact Or.inl ⟨⟨live,(responseFiled P (s.cons n) s.ctx pkts token).1.symm.trans url⟩,nofun⟩
    · refine Or.inl ⟨other apart refers,fun env' pkts' token' event => ?_⟩
      cases event
      exact absurd rfl apart
  | @shut m side live =>
    rcases Decidable.em (n = m) with rfl | apart
    · have url := (mine refers).2
      rcases (shutFiled (s.cons n) s.ctx side).1 with same | gone
      · exact Or.inl ⟨⟨live,same.symm.trans url⟩,nofun⟩
      · cases gone.symm.trans url
    · exact Or.inl ⟨other apart refers,nofun⟩
  | call | section_ | write | clock | config | answer | receive | torn => exact Or.inl ⟨refers,nofun⟩

end steps

section scripts

def alone (n sections : Nat) (c : TableCall) : List WorldEvent :=
  .task (.call c) :: List.replicate sections (.task (.advance n))

def idlePasses (n : Nat) : List WorldEvent :=
  (List.replicate n [WorldEvent.task (.write (.begin true)),WorldEvent.task (.write .turn)]).flatten

def passWith (events : List WriterEvent) : List WorldEvent :=
  (([.begin true,.turn,.work .saved] : List WriterEvent) ++ events ++ [WriterEvent.turn]).map fun e => .task (.write e)

instance decidableNamed (found : Option UrlId) (p : UrlId → Prop) [DecidablePred p] : Decidable (∀ id ∈ found,p id) :=
  Option.decidableForallMem found

end scripts

end MipsElfExec.Snooping

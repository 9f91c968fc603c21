import MipsElfExec.Snooping.Interleave
import MipsElfExec.Snooping.Work

/-! What becomes of an entry: the table's sections, one map each, and the work of the
write task. -/
namespace MipsElfExec.Snooping
open CString MipsElfExec.Ring Section

variable {ctx ctx' : Ctx} {id j : UrlId} {res : ResList → List UrlId} {hash : Nat → List UrlId}

def UrlEntry.taken (fill : UrlEntry → UrlEntry) (e : UrlEntry) : UrlEntry :=
  (UrlEntry.lease fill e).setFlags ({ · with urlHash := true })

def UrlEntry.queued (e : UrlEntry) : UrlEntry := e.setFlags ({ · with cacheList := true })

def addHeld (jiffies : Nat) (name : Bytes) (e : UrlEntry) : UrlEntry :=
  { e.hold name with
    pktSendTick := jiffies
    urlFlags := { e.urlFlags with resLfb := true }
    urlAccessNum := 1 }

def youkuHeld (jiffies : Nat) (name : Bytes) (e : UrlEntry) : UrlEntry :=
  { (e.hold name).access with
    pktSendTick := jiffies
    urlFlags := { e.urlFlags with ngxDown := true,resLfb := true } }

def recordHeld (server path : Bytes) (e : UrlEntry) : UrlEntry :=
  { e with
    dataBufList := []
    serverName := server
    resUrl := path
    urlAccessNum := 0
    encodingType := .none
    urlAction := some .add }

def recordQueued (e : UrlEntry) : UrlEntry := { e.queued.access with mimePostfix := [] }

def setbyMap (state : LocalDownState) (e : UrlEntry) : UrlEntry :=
  match state with
  | .ok =>
    { e with
      localDownState := .ok
      urlFlags := { e.urlFlags with ngxDown := true,cacheList := true }
      urlAction := some .add }
  | .error => { e.queued with localDownState := .init }
  | _ => { e with localDownState := .init }

def putEntry (found : Option UrlId) (fill held : UrlEntry → UrlEntry) (e : UrlEntry) : UrlEntry :=
  match found with
  | some _ => held e
  | none => held (e.taken fill)

def TableOp.target (ctx : Ctx) : TableOp → Option UrlId
  | .find _ => none
  | .addNew .. | .recordNew .. => urlNextFree ctx
  | .youkuPut found .. => found.or (urlNextFree ctx)
  | .addMore id | .delete id | .youkuQueue id | .recordQueue id => some id
  | .setby id _ => if (ctx.urls id).urlFlags.res then some id else none

def TableOp.entry (ctx : Ctx) : TableOp → UrlEntry → UrlEntry
  | .find _,e => e
  | .addNew rule key name,e => putEntry none (addFill ctx.serverAddr rule key) (addHeld ctx.jiffies name) e
  | .addMore _,e => e.access
  | .delete _,e => { e.queued with urlAction := some .delete }
  | .youkuPut found rule key name,e => putEntry found (youkuFill rule key) (youkuHeld ctx.jiffies name) e
  | .youkuQueue _,e => e.queued
  | .recordNew rule key server path,e => putEntry none (recordFill ctx.jiffies rule key) (recordHeld server path) e
  | .recordQueue _,e => recordQueued e
  | .setby _ state,e => setbyMap state e

theorem cacheAddUrls (ctx : Ctx) (id j : UrlId) (tick : Nat) :
    (httpUrlCacheAdd ctx id tick).urls j = if j = id then (ctx.urls id).queued else ctx.urls j := by
  unfold httpUrlCacheAdd
  split
  · rename_i set
    split
    · rename_i same
      rw [same]
      unfold UrlEntry.queued UrlEntry.setFlags
      rw [← set]
    · rfl
  · exact modifyUrls (ctx.setCache _ _) id j _

theorem takeUrls (ctx : Ctx) (id j : UrlId) (fill : UrlEntry → UrlEntry) :
    (urlTake ctx id fill).urls j = if j = id then (ctx.urls id).taken fill else ctx.urls j := by
  unfold urlTake ngxHttpSnoopingUrlHashAdd
  refine (modifyUrls _ id j _).trans ?_
  split
  · exact congrArg (fun e : UrlEntry => e.setFlags ({ · with urlHash := true })) (modifySelf _ id _)
  · rename_i other
    exact modifyOther _ _ other

theorem putUrls (ctx : Ctx) {hold : Ctx → UrlId → Ctx} (held : UrlEntry → UrlEntry) {fill : UrlEntry → UrlEntry}
    (holds : ∀ ctx' : Ctx,ctx'.jiffies = ctx.jiffies → ∀ id,hold ctx' id = ctx'.modify id held) (found : Option UrlId)
    (j : UrlId) : (urlPut ctx found fill hold).2.urls j =
      if found.or (urlNextFree ctx) = some j then putEntry found fill held (ctx.urls j) else ctx.urls j := by
  have part (ctx' : Ctx) (same : ctx'.jiffies = ctx.jiffies) (id : UrlId) :
      (hold ctx' id).urls j = if some id = some j then held (ctx'.urls j) else ctx'.urls j := by
    rw [holds ctx' same,modifyUrls]
    rcases Decidable.em (j = id) with rfl | other
    · rw [if_pos rfl,if_pos rfl]
    · rw [if_neg other,if_neg fun same => other (Option.some.inj same).symm]
  unfold urlPut
  cases found with
  | some id => exact part ctx rfl id
  | none =>
    cases urlNextFree ctx with
    | none => exact (if_neg nofun).symm
    | some id =>
      refine (part (urlTake ctx id fill) rfl id).trans ?_
      rw [takeUrls]
      rcases Decidable.em (id = j) with rfl | other
      · rw [if_pos rfl,if_pos rfl]
        exact (if_pos rfl).symm
      · have apart : some id ≠ some j := fun same => other (Option.some.inj same)
        rw [if_neg apart,if_neg (Ne.symm other)]
        exact (if_neg apart).symm

theorem targetIf {id : UrlId} {e e' : UrlEntry} : (if some id = some j then e else e') = if j = id then e else e' := by
  rcases Decidable.em (j = id) with rfl | other
  · rw [if_pos rfl,if_pos rfl]
  · rw [if_neg other,if_neg fun same => other (Option.some.inj same).symm]

theorem queuedUrls (mid : Ctx) (tick : Nat) : (httpUrlCacheAdd mid id tick).urls j =
    if some id = some j then (mid.urls j).queued else mid.urls j := by
  rw [cacheAddUrls,targetIf]
  split
  · rename_i same
    rw [same]
  · rfl

theorem modifiedUrls (f : UrlEntry → UrlEntry) : (ctx.modify id f).urls j =
    if some id = some j then f (ctx.urls j) else ctx.urls j := by
  rw [modifyUrls,targetIf]
  split
  · rename_i same
    rw [same]
  · rfl

theorem opEntry (op : TableOp) (ctx : Ctx) (j : UrlId) : (op.exec ctx).2.urls j =
    if op.target ctx = some j then op.entry ctx (ctx.urls j) else ctx.urls j := by
  cases op with
  | find key => exact (if_neg nofun).symm
  | addNew rule key name =>
    refine putUrls ctx (addHeld ctx.jiffies name) (fun ctx' same id => ?_) none j
    unfold addHold
    rw [same]
    rfl
  | addMore id => exact modifiedUrls UrlEntry.access
  | delete id =>
    refine (queuedUrls _ 0).trans ?_
    rw [modifiedUrls]
    unfold TableOp.target
    split <;> rfl
  | youkuPut found rule key name =>
    refine putUrls ctx (youkuHeld ctx.jiffies name) (fun ctx' same id => ?_) found j
    unfold youkuHold
    rw [same]
    rfl
  | youkuQueue id => exact queuedUrls ctx 1
  | recordNew rule key server path => exact putUrls ctx (recordHeld server path) (fun ctx' same id => rfl) none j
  | recordQueue id =>
    have mapped : ((TableOp.recordQueue id).exec ctx).2.urls j = _ :=
      modifiedUrls fun e => { e.access with mimePostfix := [] }
    rw [mapped,queuedUrls]
    unfold TableOp.target
    split <;> rfl
  | setby id state =>
    unfold TableOp.exec stateSetby TableOp.target
    dsimp only
    split
    · cases state with
      | ok =>
        refine (queuedUrls _ 0).trans ?_
        rw [modifiedUrls]
        split <;> rfl
      | error =>
        refine (queuedUrls _ 11).trans ?_
        rw [modifiedUrls]
        split <;> rfl
      | init => exact modifiedUrls _
      | ing => exact modifiedUrls _
    · exact (if_neg nofun).symm

section record
variable {rule : Rule} {key server path : Bytes}

theorem putResult (ctx : Ctx) (found : Option UrlId) (fill : UrlEntry → UrlEntry) (hold : Ctx → UrlId → Ctx) :
    (urlPut ctx found fill hold).1 = found.or (urlNextFree ctx) := by
  unfold urlPut
  cases found with
  | some id => rfl
  | none => cases urlNextFree ctx <;> rfl

def recordResult (ctx : Ctx) (rule : Rule) (key : Bytes) : Option UrlId :=
  (ngxHttpSnoopingUrlHashFind ctx key).or (if rule.cacheFlg.actionCacheSp then urlNextFree ctx else none)

def recordEntry (ctx : Ctx) (rule : Rule) (key server path : Bytes) (e : UrlEntry) : UrlEntry :=
  match ngxHttpSnoopingUrlHashFind ctx key with
  | some _ => e.access
  | none => recordQueued (putEntry none (recordFill ctx.jiffies rule key) (recordHeld server path) e)

theorem recordCases {id : UrlId} (mine : recordResult ctx rule key = some id) :
    (ngxHttpSnoopingUrlHashFind ctx key = some id ∧ ∀ e,recordEntry ctx rule key server path e = e.access) ∨
    (ngxHttpSnoopingUrlHashFind ctx key = none ∧ rule.cacheFlg.actionCacheSp = true ∧ urlNextFree ctx = some id ∧
      ∀ e,recordEntry ctx rule key server path e =
        recordQueued (putEntry none (recordFill ctx.jiffies rule key) (recordHeld server path) e)) := by
  unfold recordResult at mine
  unfold recordEntry
  cases found : ngxHttpSnoopingUrlHashFind ctx key with
  | some known =>
    rw [found] at mine
    exact Or.inl ⟨mine,fun _ => rfl⟩
  | none =>
    rw [found,Option.none_or] at mine
    cases sp : rule.cacheFlg.actionCacheSp with
    | true =>
      rw [sp,if_pos rfl] at mine
      exact Or.inr ⟨rfl,rfl,mine,fun _ => rfl⟩
    | false =>
      rw [sp,if_neg Bool.false_ne_true] at mine
      cases mine

theorem recordNone (none_ : recordTarget server path = none) :
    (ngxHttpSnoopingUrlRecord server path).exec ctx = (none,ctx) := by
  unfold ngxHttpSnoopingUrlRecord
  rw [none_]
  rfl

theorem recordUrls (target : recordTarget server path = some (rule,key)) (ctx : Ctx) :
    ((ngxHttpSnoopingUrlRecord server path).exec ctx).1 = recordResult ctx rule key ∧
    ∀ j,((ngxHttpSnoopingUrlRecord server path).exec ctx).2.urls j =
      if recordResult ctx rule key = some j then recordEntry ctx rule key server path (ctx.urls j) else ctx.urls j := by
  unfold ngxHttpSnoopingUrlRecord recordResult recordEntry
  rw [target]
  unfold TableProg.exec
  dsimp only [Prog.run,TableOp.exec]
  cases ngxHttpSnoopingUrlHashFind ctx key with
  | some id => exact ⟨rfl,fun j => opEntry (.addMore id) ctx j⟩
  | none =>
    dsimp only
    rw [Option.none_or]
    by_cases sp : rule.cacheFlg.actionCacheSp = true
    · simp only [if_pos sp]
      dsimp only [Prog.run,TableOp.exec]
      have result := putResult ctx none (recordFill ctx.jiffies rule key) fun ctx id => recordHold ctx id server path
      have first (j : UrlId) : (urlPut ctx none (recordFill ctx.jiffies rule key)
          fun ctx id => recordHold ctx id server path).2.urls j =
            if urlNextFree ctx = some j then
              putEntry none (recordFill ctx.jiffies rule key) (recordHeld server path) (ctx.urls j)
            else ctx.urls j :=
        opEntry (.recordNew rule key server path) ctx j
      rw [Option.none_or] at result
      generalize urlPut ctx _ _ _ = put at result first
      obtain ⟨id,mid⟩ := put
      dsimp only at result first ⊢
      subst result
      generalize urlNextFree ctx = taken at first ⊢
      cases taken with
      | none => exact ⟨rfl,fun j => (first j).trans (if_neg nofun)⟩
      | some id =>
        have last (j : UrlId) : ((TableOp.recordQueue id).exec mid).2.urls j =
          if some id = some j then recordQueued (mid.urls j) else mid.urls j := opEntry (.recordQueue id) mid j
        refine ⟨rfl,fun j => (last j).trans ?_⟩
        rw [first]
        split <;> rfl
    · simp only [if_neg sp]
      exact ⟨rfl,fun j => (if_neg nofun).symm⟩

end record

section lists

def Linked (ctx : Ctx) : Prop := ∃ res hash,Listed ctx res hash

theorem putLinked (L : Linked ctx) {fill : UrlEntry → UrlEntry} {key : Bytes} (F : Fills fill key)
    {hold : Ctx → UrlId → Ctx} (quiet : ∀ ctx id,Alike ctx (hold ctx id)) (found : Option UrlId) :
    Linked (urlPut ctx found fill hold).2 := by
  obtain ⟨res,hash,T⟩ := L
  unfold urlPut
  cases found with
  | some id => exact ⟨res,hash,listedAlike (quiet ctx id) T⟩
  | none =>
    cases next : urlNextFree ctx with
    | none => exact ⟨res,hash,T⟩
    | some id =>
      obtain ⟨rest,hash',_,taken⟩ := listedTake T F next
      exact ⟨_,hash',listedAlike (quiet _ id) taken⟩

theorem sectionLinked (L : Linked ctx) (op : TableOp) : Linked (op.exec ctx).2 := by
  have still {ctx'} (A : Alike ctx ctx') : Linked ctx' := L.imp fun _ => Exists.imp fun _ => listedAlike A
  have queue {mid ctx' : Ctx} {id : UrlId} {tick : Nat} (before : Alike ctx mid)
      (after : Alike (httpUrlCacheAdd mid id tick) ctx') : Linked ctx' :=
    L.imp fun _ => Exists.imp fun _ T => listedAlike after (listedCacheAdd (listedAlike before T) tick)
  cases op with
  | find key => exact L
  | addNew rule key name => exact putLinked L (addFills _ rule key) (addHoldAlike name) none
  | addMore id => exact still (alikeModify rfl)
  | delete id => exact queue (alikeModify rfl) (alikeRefl _)
  | youkuPut found rule key name => exact putLinked L (youkuFills rule key) (youkuHoldAlike name) found
  | youkuQueue id => exact queue (alikeRefl _) (alikeRefl _)
  | recordNew rule key server path => exact putLinked L (recordFills _ rule key) (recordHoldAlike server path) none
  | recordQueue id => exact queue (alikeRefl _) (recordQueueAlike ctx id)
  | setby id state =>
    unfold TableOp.exec stateSetby
    dsimp only
    split
    · cases state with
      | ok => exact queue (alikeModify rfl) (alikeRefl _)
      | error => exact queue (alikeModify rfl) (alikeRefl _)
      | init => exact still (alikeModify rfl)
      | ing => exact still (alikeModify rfl)
    · exact L

theorem writerLinked (L : Linked ctx) {w w' : Writer} {e : WriterEvent} {out : Option WriterOut}
    (W : WriterStep ctx w e ctx' w' out) : Linked ctx' := by
  obtain ⟨res,hash,T⟩ := L
  cases W with
  | quiet free hand => exact ⟨res,hash,listedAlike (tickAlike ctx _) T⟩
  | pop got => exact ⟨res,hash,listedCacheGet T got⟩
  | work hand worked => exact ⟨res,hash,workedListed T worked.worked⟩
  | log => exact ⟨res,hash,T⟩
  | @remove i id due =>
    rcases T.somewhere id with free | use
    · obtain ⟨_,_,hash',_,after⟩ := listedRelease T free
      exact ⟨_,hash',after⟩
    · obtain ⟨_,_,hash',_,after⟩ := listedRelease T use
      exact ⟨_,hash',after⟩
  | leave other => exact ⟨res,hash,T⟩

theorem walkFound (T : Listed ctx res hash) {b : Nat} {key : Bytes} (n : Nat) {node : Node Nat UrlId}
    (here : node = .head b ∨ ∃ i ∈ hash b,node = .item i) (found : hashWalk ctx key n node = some id) :
    id ∈ hash b ∧ hashSame key (ctx.urls id).fileKeyName = true := by
  induction n generalizing node with
  | zero => cases found
  | succ n ih =>
    rcases here with rfl | ⟨i,mem,rfl⟩
    · cases found
    · unfold hashWalk at found
      split at found
      · rename_i same
        cases Option.some.inj found
        exact ⟨mem,same⟩
      · exact ih (ringsNext T.hashRings (List.mem_cons_of_mem _ (memNodes.mpr ⟨i,mem,rfl⟩))) found

theorem urlFound (L : Linked ctx) {key : Bytes} (found : ngxHttpSnoopingUrlHashFind ctx key = some id) :
    (ctx.place id).res = true ∧ hashSame key (ctx.urls id).fileKeyName = true := by
  obtain ⟨res,hash,T⟩ := L
  obtain ⟨mem,same⟩ := walkFound T _ (ringsNext T.hashRings List.mem_cons_self) found
  exact ⟨T.hashedInUse id ((T.hashed id _).mp mem).1,same⟩

theorem nextFreeIdle (L : Linked ctx) (next : urlNextFree ctx = some id) : (ctx.place id).res = false := by
  obtain ⟨res,hash,T⟩ := L
  obtain ⟨_,rest,items⟩ := nextFreeFirst T next
  exact notUsed T (by rw [items]; exact List.mem_cons_self)

theorem linkedInit (jiffies : Nat) : Linked (ngxHttpSnoopingInit jiffies) := by
  obtain ⟨res,hash,_,T⟩ := tidyInit jiffies
  exact ⟨res,hash,T.toListed⟩

end lists

section work
variable {wrote told : Bool}

def UrlEntry.saves (e : UrlEntry) (outcome : WriteOutcome) : Bool :=
  (e.urlFlags.resLfok || e.urlFlags.resLfb) && e.cacheFlg.spWrite && !e.urlFlags.resWrite && e.written outcome

def UrlEntry.traits (e : UrlEntry) : Bytes × Nat × Bool := (e.mimePostfix,e.redirectAddr,e.urlFlags.ngxDown)

structure Wrought (ctx : Ctx) (id : UrlId) (wrote told : Bool) (ctx' : Ctx) : Prop where
  others : ∀ j,j ≠ id → ctx'.urls j = ctx.urls j
  traits : (ctx'.urls id).traits = (ctx.urls id).traits
  write : (ctx'.urls id).urlFlags.resWrite = true →
    (ctx.urls id).urlFlags.resWrite = true ∨ (ctx.urls id).urlFlags.ngxDown = true ∨ wrote = true
  parse : (ctx'.urls id).urlFlags.ngxParseOk = ((ctx.urls id).urlFlags.ngxParseOk || told)

theorem wroughtTrans {ctx'' : Ctx} {wrote' told' : Bool} (first : Wrought ctx id wrote told ctx')
    (second : Wrought ctx' id wrote' told' ctx'') : Wrought ctx id (wrote || wrote') (told || told') ctx'' := by
  have down : (ctx'.urls id).urlFlags.ngxDown = (ctx.urls id).urlFlags.ngxDown := congrArg (·.2.2) first.traits
  refine ⟨fun j other => (second.others j other).trans (first.others j other),second.traits.trans first.traits,
    fun stored => ?_,?_⟩
  · rw [Bool.or_eq_true]
    rcases second.write stored with before | downed | saved
    · exact (first.write before).imp_right (Or.imp_right Or.inl)
    · exact Or.inr (Or.inl (down ▸ downed))
    · exact Or.inr (Or.inr (Or.inr saved))
  · rw [second.parse,first.parse,Bool.or_assoc]

theorem wroughtModify {f : UrlEntry → UrlEntry} (traits : (f (ctx.urls id)).traits = (ctx.urls id).traits)
    (write : (f (ctx.urls id)).urlFlags.resWrite = (ctx.urls id).urlFlags.resWrite)
    (parse : (f (ctx.urls id)).urlFlags.ngxParseOk = (ctx.urls id).urlFlags.ngxParseOk) :
    Wrought ctx id false false (ctx.modify id f) := by
  refine ⟨fun j other => modifyOther ctx f other,?_,fun wrote => ?_,?_⟩ <;> rw [modifySelf] at *
  · exact traits
  · exact Or.inl (write ▸ wrote)
  · rw [parse,Bool.or_false]

theorem wroughtQueue (ctx : Ctx) (id : UrlId) (tick : Nat) : Wrought ctx id false false (httpUrlCacheAdd ctx id tick) := by
  have here := cacheAddUrls ctx id id tick
  rw [if_pos rfl] at here
  refine ⟨fun j other => (cacheAddUrls ctx id j tick).trans (if_neg other),?_,fun wrote => ?_,?_⟩ <;> rw [here] at *
  · rfl
  · exact Or.inl wrote
  · exact (Bool.or_false _).symm

theorem sendWrought (hz : Nat) (ctx : Ctx) (fd : Bool) (i : Nat) (id : UrlId) (action : Sp2cAction) :
    Wrought ctx id false false (sp2cSend hz ctx fd i id action).1 := by
  have wait (ctx : Ctx) : Wrought ctx id false false
      ((httpUrlCacheAdd ctx id 11).setFlags id ({ · with ngxWaitResponse := true })) :=
    wroughtTrans (wroughtQueue ctx id 11) (wroughtModify rfl rfl rfl)
  unfold sp2cSend
  dsimp only
  split
  · exact wroughtTrans (wroughtModify rfl rfl rfl) (wait _)
  · exact wait ctx

theorem wroughtRefl (ctx : Ctx) (id : UrlId) : Wrought ctx id false false ctx :=
  ⟨fun _ _ => rfl,rfl,Or.inl,(Bool.or_false _).symm⟩

theorem finishWrought (ctx : Ctx) (fd : Bool) (i : Nat) (id : UrlId) : Wrought ctx id false false (writeFinish ctx fd i id).1 := by
  unfold writeFinish
  dsimp only
  split
  · rename_i down
    refine ⟨fun j other => modifyOther ctx _ other,?_,fun _ => Or.inr (Or.inl down),?_⟩ <;> rw [Ctx.setFlags,modifySelf]
    · rfl
    · exact (Bool.or_false _).symm
  · exact wroughtRefl ctx id

theorem downWrought (hz : Nat) (ctx : Ctx) (fd : Bool) (i : Nat) (id : UrlId) :
    Wrought ctx id false false (writeDown hz ctx fd i id).1 := by
  unfold writeDown
  split
  · split
    · exact wroughtRefl ctx id
    · exact sendWrought hz ctx fd i id .down
  · exact finishWrought ctx fd i id

theorem parseWrought (hz : Nat) (ctx : Ctx) (fd : Bool) (i : Nat) (id : UrlId) :
    Wrought ctx id false false (writeParse hz ctx fd i id).1 := by
  unfold writeParse
  split
  · split
    · exact wroughtRefl ctx id
    · exact sendWrought hz ctx fd i id .parse
  · exact downWrought hz ctx fd i id

theorem urlWriteWrought (ctx : Ctx) (id : UrlId) (outcome : WriteOutcome) (off : (ctx.urls id).urlFlags.resWrite = false) :
    Wrought ctx id ((ctx.urls id).written outcome) false (ngxHttpUrlWrite ctx id outcome) := by
  obtain ⟨_,saved⟩ := urlWriteFlags ctx id outcome off
  have rest : (∀ j,j ≠ id → (ngxHttpUrlWrite ctx id outcome).urls j = ctx.urls j) ∧
      ((ngxHttpUrlWrite ctx id outcome).urls id).traits = (ctx.urls id).traits ∧
      ((ngxHttpUrlWrite ctx id outcome).urls id).urlFlags.ngxParseOk = (ctx.urls id).urlFlags.ngxParseOk := by
    have freed (lost : List Nat → List Nat) (j : UrlId) (other : j ≠ id) : (urlBufsFree ctx id lost).urls j = ctx.urls j :=
      modifyOther _ _ other
    have flagged (lost : List Nat → List Nat) (f : UrlFlags → UrlFlags)
        (down : (f (ctx.urls id).urlFlags).ngxDown = (ctx.urls id).urlFlags.ngxDown)
        (parse : (f (ctx.urls id).urlFlags).ngxParseOk = (ctx.urls id).urlFlags.ngxParseOk) :
        (∀ j,j ≠ id → ((urlBufsFree ctx id lost).setFlags id f).urls j = ctx.urls j) ∧
        (((urlBufsFree ctx id lost).setFlags id f).urls id).traits = (ctx.urls id).traits ∧
        (((urlBufsFree ctx id lost).setFlags id f).urls id).urlFlags.ngxParseOk = (ctx.urls id).urlFlags.ngxParseOk := by
      refine ⟨fun j other => (modifyOther _ _ other).trans (freed _ j other),?_,?_⟩ <;>
        rw [Ctx.setFlags,modifySelf,urlBufsFree,modifySelf]
      · exact congrArg (fun down => ((ctx.urls id).mimePostfix,(ctx.urls id).redirectAddr,down)) down
      · exact parse
    unfold ngxHttpUrlWrite bodyWrite
    dsimp only
    split
    · exact ⟨fun _ _ => rfl,rfl,rfl⟩
    · split
      · refine ⟨fun j other => modifyOther ctx _ other,?_,?_⟩ <;> rw [Ctx.setFlags,modifySelf] <;> rfl
      · split
        · exact ⟨fun _ _ => rfl,rfl,rfl⟩
        · split
          · refine ⟨fun j other => (modifyOther _ _ other).trans (freed _ j other),?_,?_⟩
            all_goals rw [modifySelf,urlBufsFree,modifySelf]
            rfl
          · cases outcome with
            | saved => exact flagged _ _ rfl rfl
            | failed => exact flagged _ _ rfl rfl
            | broken at_ => exact flagged _ _ rfl rfl
  refine ⟨rest.1,rest.2.1,fun wrote => Or.inr (Or.inr (saved ▸ wrote)),?_⟩
  rw [rest.2.2,Bool.or_false]

theorem bodyWrought (hz : Nat) (ctx : Ctx) (fd : Bool) (i : Nat) (id : UrlId) (outcome : WriteOutcome) :
    Wrought ctx id ((ctx.urls id).cacheFlg.spWrite && !(ctx.urls id).urlFlags.resWrite && (ctx.urls id).written outcome)
      false (writeBody hz ctx fd i id outcome).1 := by
  unfold writeBody
  split
  · rename_i due
    have write := urlWriteWrought ctx id outcome due.2
    rw [due.1,due.2,Bool.not_false,Bool.and_true,Bool.true_and]
    dsimp only
    split
    · exact Bool.or_false ((ctx.urls id).written outcome) ▸ wroughtTrans write (parseWrought hz _ fd i id)
    · exact Bool.or_false ((ctx.urls id).written outcome) ▸ wroughtTrans write (wroughtQueue _ id 3)
  · obtain ⟨others,traits,write,parse⟩ := parseWrought hz ctx fd i id
    exact ⟨others,traits,fun wrote => (write wrote).imp_right (Or.imp_right nofun),parse⟩

theorem tookWrought (hz : Nat) (ctx : Ctx) (fd : Bool) (i : Nat) (id : UrlId) (outcome : WriteOutcome) :
    Wrought ctx id ((ctx.urls id).saves outcome) false (writeTook hz ctx fd i id outcome).1 := by
  have begun : Wrought ctx id false false (ctx.modify id urlLocalFileInit) := by
    have init (e : UrlEntry) : (urlLocalFileInit e).traits = e.traits ∧
        (urlLocalFileInit e).urlFlags.resWrite = e.urlFlags.resWrite ∧
        (urlLocalFileInit e).urlFlags.ngxParseOk = e.urlFlags.ngxParseOk := by
      unfold urlLocalFileInit
      split <;> exact ⟨rfl,rfl,rfl⟩
    obtain ⟨traits,write,parse⟩ := init (ctx.urls id)
    exact wroughtModify traits write parse
  have entry : (urlLocalFileInit (ctx.urls id)).urlFlags.resLfok =
        ((ctx.urls id).urlFlags.resLfok || (ctx.urls id).urlFlags.resLfb) ∧
      (urlLocalFileInit (ctx.urls id)).cacheFlg = (ctx.urls id).cacheFlg ∧
      (urlLocalFileInit (ctx.urls id)).urlFlags.resWrite = (ctx.urls id).urlFlags.resWrite ∧
      (urlLocalFileInit (ctx.urls id)).written outcome = (ctx.urls id).written outcome := by
    unfold urlLocalFileInit
    split
    · rename_i lfb
      rw [lfb.1,Bool.or_true]
      exact ⟨rfl,rfl,rfl,rfl⟩
    · rename_i other
      refine ⟨?_,rfl,rfl,rfl⟩
      rcases not_and_or.mp other with off | set
      · rw [Bool.eq_false_of_not_eq_true off,Bool.or_false]
      · rw [Bool.eq_true_of_not_eq_false set,Bool.true_or]
  obtain ⟨lfok,flg,wrote,written⟩ := entry
  unfold writeTook UrlEntry.saves
  dsimp only
  split
  · rename_i ready
    rw [modifySelf,lfok] at ready
    have body := bodyWrought hz (ctx.modify id urlLocalFileInit) fd i id outcome
    rw [modifySelf,flg,wrote,written] at body
    rw [ready,Bool.true_and]
    exact wroughtTrans begun body
  · rename_i none_
    rw [modifySelf,lfok] at none_
    rw [Bool.eq_false_of_not_eq_true none_,Bool.false_and,Bool.false_and,Bool.false_and]
    exact wroughtTrans begun (wroughtQueue _ id 3)

theorem answerWrought (hz : Nat) (ctx : Ctx) (fd : Bool) (i : Nat) (id : UrlId) (action : Sp2cAction) (ok : Bool) :
    Wrought ctx id false ok (writeAnswer hz ctx fd i id action ok).1 := by
  unfold writeAnswer
  cases ok with
  | false => exact wroughtQueue ctx id 11
  | true =>
    have marked : Wrought ctx id false true (ctx.setFlags id ({ · with ngxParseOk := true })) := by
      refine ⟨fun j other => modifyOther ctx _ other,?_,fun wrote => Or.inl ?_,?_⟩ <;> rw [Ctx.setFlags,modifySelf] at *
      · rfl
      · exact wrote
      · exact (Bool.or_true _).symm
    dsimp only
    rw [if_pos rfl]
    cases action with
    | parse => exact wroughtTrans marked (downWrought hz _ fd i id)
    | down => exact wroughtTrans marked (finishWrought _ fd i id)
    | getnext => exact wroughtTrans marked (finishWrought _ fd i id)

def WriterEvent.saves (e : UrlEntry) : WriterEvent → Bool
  | .work outcome => e.saves outcome
  | _ => false

def WriterEvent.tells : WriterEvent → Bool
  | .answer ok => ok
  | _ => false

structure Title where
  urlAction : Option C2spAction
  tenancy : Nat
  serverName : Bytes
  resUrl : Bytes
  pcacheRule : Option Rule
  fileKeyName : Bytes
  res : Bool
  deriving DecidableEq, Repr

def UrlEntry.title (e : UrlEntry) : Title :=
  ⟨e.urlAction,e.tenancy,e.serverName,e.resUrl,e.pcacheRule,e.fileKeyName,e.urlFlags.res⟩

structure Touched (wrote told : Bool) (e e' : UrlEntry) : Prop where
  title : e'.title = e.title
  traits : e'.traits = e.traits
  write : e'.urlFlags.resWrite = true → e.urlFlags.resWrite = true ∨ e.urlFlags.ngxDown = true ∨ wrote = true
  parse : e'.urlFlags.ngxParseOk = (e.urlFlags.ngxParseOk || told)

theorem touchedRefl (e : UrlEntry) : Touched false false e e := ⟨rfl,rfl,Or.inl,(Bool.or_false _).symm⟩

theorem coreTitle {e e' : UrlEntry} (same : e'.core = e.core) : e'.title = e.title := by
  injection same with place action tenancy server path rule
  injection place with inUse _ _ key
  unfold UrlEntry.title
  rw [action,tenancy,server,path,rule,inUse,key]

theorem workedTitle {w : Written} (worked : WorkedOut ctx id w) (j : UrlId) : (w.1.urls j).title = (ctx.urls j).title := by
  cases worked.worked with
  | kept still => exact coreTitle (still.core j)
  | queued mid tick before after =>
    rw [coreTitle (after.core j),← coreTitle (before.core j),cacheAddUrls]
    split
    · rename_i same
      rw [same]
      rfl
    · rfl

theorem cacheGetUrls {ctx' : Ctx} (got : httpUrlCacheGet ctx = some (id,ctx')) (j : UrlId) :
    ctx'.urls j = if j = id then (ctx.urls id).setFlags ({ · with cacheList := false }) else ctx.urls j := by
  unfold httpUrlCacheGet at got
  split at got <;> try contradiction
  cases Option.some.inj got
  exact modifyUrls (ctx.setCache _ _) id j _

theorem releaseUrls (ctx : Ctx) (id j : UrlId) :
    (urlRelease ctx id).urls j = if j = id then (ctx.urls id).setFlags (fun _ => {}) else ctx.urls j := by
  have hashed (j : UrlId) : (ngxHttpSnoopingUrlHashDel ctx id).urls j =
      if j = id then (ctx.urls id).setFlags ({ · with urlHash := false }) else ctx.urls j :=
    modifyUrls (ctx.setHash (listDel ctx.hashLinks id)) id j (·.setFlags ({ · with urlHash := false }))
  unfold urlRelease
  refine (modifyUrls _ id j _).trans ?_
  rcases Decidable.em (j = id) with rfl | other
  · rw [if_pos rfl,if_pos rfl]
    split
    · have here := hashed j
      rw [if_pos rfl] at here
      exact Eq.trans (congrArg (fun e : UrlEntry => e.setFlags (fun _ => {})) here) rfl
    · rfl
  · rw [if_neg other,if_neg other]
    split
    · exact (hashed j).trans (if_neg other)
    · rfl

structure Removes (ctx : Ctx) (w : Writer) (e : WriterEvent) (id : UrlId) (ctx' : Ctx) : Prop where
  hand : ∃ i,w = .removing i id
  event : e = .remove
  due : (ctx.urls id).urlAction = some .delete
  last : ctx' = urlRelease ctx id

theorem workingTouched {w : Writer} {e : WriterEvent} {last : Written} (hand : w.working = some id)
    (worked : WorkedOut ctx id last) (wrought : Wrought ctx id (e.saves (ctx.urls id)) e.tells last.1) (j : UrlId) :
    Touched (w.working == some j && e.saves (ctx.urls j)) (w.working == some j && e.tells) (ctx.urls j) (last.1.urls j) := by
  rcases Decidable.em (j = id) with rfl | other
  · rw [hand,beq_self_eq_true,Bool.true_and,Bool.true_and]
    exact ⟨workedTitle worked j,wrought.traits,wrought.write,wrought.parse⟩
  · rw [wrought.others j other,hand,beq_eq_false_iff_ne.mpr fun same => other (Option.some.inj same).symm]
    exact touchedRefl _

theorem writerTouches {hz : Nat} {w w' : Writer} {e : WriterEvent} {out : Option WriterOut}
    (wrote : ngxHttpSnoopingWriteProcess hz ctx w e = some (ctx',w',out)) :
    (∃ id,Removes ctx w e id ctx') ∨
    ∀ j,Touched (w.working == some j && e.saves (ctx.urls j)) (w.working == some j && e.tells) (ctx.urls j) (ctx'.urls j) := by
  have quiet (free : w.working = none) (same : ∀ j,Touched false false (ctx.urls j) (ctx'.urls j)) (j : UrlId) :
      Touched (w.working == some j && e.saves (ctx.urls j)) (w.working == some j && e.tells) (ctx.urls j) (ctx'.urls j) := by
    rw [free]
    exact same j
  unfold ngxHttpSnoopingWriteProcess at wrote
  split at wrote <;> try contradiction
  · cases Option.some.inj wrote
    exact Or.inr (quiet rfl fun j => touchedRefl _)
  · split at wrote
    · split at wrote
      · rename_i id ctx' got
        cases Option.some.inj wrote
        refine Or.inr (quiet rfl fun j => ?_)
        rw [cacheGetUrls got]
        split
        · rename_i same
          rw [same]
          exact ⟨rfl,rfl,Or.inl,(Bool.or_false _).symm⟩
        · exact touchedRefl _
      · cases Option.some.inj wrote
        exact Or.inr (quiet rfl fun j => touchedRefl _)
    · cases Option.some.inj wrote
      exact Or.inr (quiet rfl fun j => touchedRefl _)
  · rename_i fd i id outcome
    have touched := workingTouched (w := .took fd i id) (e := .work outcome) rfl (tookWorked hz ctx fd i id outcome)
      (tookWrought hz ctx fd i id outcome)
    rw [Option.some.inj wrote] at touched
    exact Or.inr touched
  · rename_i fd i id action ok
    have touched := workingTouched (w := .calling fd i id action) (e := .answer ok) rfl
      (answerWorked hz ctx fd i id action ok) (answerWrought hz ctx fd i id action ok)
    rw [Option.some.inj wrote] at touched
    exact Or.inr touched
  · cases Option.some.inj wrote
    exact Or.inr (quiet rfl fun j => touchedRefl _)
  · rename_i i id
    split at wrote
    · rename_i due
      cases Option.some.inj wrote
      exact Or.inl ⟨id,⟨i,rfl⟩,rfl,due,rfl⟩
    · cases Option.some.inj wrote
      exact Or.inr (quiet rfl fun j => touchedRefl _)

end work

section requests
variable {fd : Bool} {i : Nat}

def UrlEntry.asks (e : UrlEntry) : Sp2cAction := if e.cacheFlg.actionUpparse then .parse else .down

def Asks (e : UrlEntry) (id : UrlId) (told : Bool) (out : Option WriterOut) : Prop :=
  ∀ req,out = some (.send req) → req.sessionId = id ∧ req.urlData = e.urlBuf ∧
    (told = false → e.urlFlags.ngxParseOk = false → req.sp2cAction = e.asks)

theorem asksNone (e : UrlEntry) (id : UrlId) (told : Bool) : Asks e id told none := nofun

theorem sendAsks (hz : Nat) (ctx : Ctx) (fd : Bool) (i : Nat) (id : UrlId) {told : Bool} {action : Sp2cAction}
    (due : told = false → (ctx.urls id).urlFlags.ngxParseOk = false → action = (ctx.urls id).asks) :
    Asks (ctx.urls id) id told (sp2cSend hz ctx fd i id action).2.2 := by
  intro req sent
  unfold sp2cSend at sent
  dsimp only at sent
  split at sent <;> try contradiction
  cases Option.some.inj sent
  exact ⟨rfl,rfl,due⟩

theorem downAsks (hz : Nat) (ctx : Ctx) (fd : Bool) (i : Nat) (id : UrlId) {told : Bool}
    (parsed : told = false → (ctx.urls id).urlFlags.ngxParseOk = false → (ctx.urls id).cacheFlg.actionUpparse = false) :
    Asks (ctx.urls id) id told (writeDown hz ctx fd i id).2.2 := by
  unfold writeDown
  split
  · split
    · exact asksNone _ id told
    · refine sendAsks hz ctx fd i id fun untold unparsed => ?_
      unfold UrlEntry.asks
      rw [parsed untold unparsed]
      rfl
  · exact asksNone _ id told

theorem parseAsks (hz : Nat) (ctx : Ctx) (fd : Bool) (i : Nat) (id : UrlId) (told : Bool) :
    Asks (ctx.urls id) id told (writeParse hz ctx fd i id).2.2 := by
  unfold writeParse
  split
  · rename_i due
    split
    · exact asksNone _ id told
    · refine sendAsks hz ctx fd i id fun _ _ => ?_
      unfold UrlEntry.asks
      rw [due.1]
      rfl
  · rename_i done
    refine downAsks hz ctx fd i id fun _ unparsed => ?_
    exact Bool.eq_false_iff.mpr fun upparse => done ⟨upparse,unparsed⟩

theorem asksSame {e e' : UrlEntry} {id : UrlId} {told : Bool} {out : Option WriterOut} (core : e'.core = e.core)
    (parse : e'.urlFlags.ngxParseOk = e.urlFlags.ngxParseOk) (asks : Asks e' id told out) : Asks e id told out := by
  obtain ⟨url,flg⟩ := coreUrl core
  intro req sent
  obtain ⟨session,data,action⟩ := asks req sent
  unfold UrlEntry.asks at action ⊢
  rw [url] at data
  rw [parse,flg] at action
  exact ⟨session,data,action⟩

theorem bodyAsks (hz : Nat) (ctx : Ctx) (fd : Bool) (i : Nat) (id : UrlId) (outcome : WriteOutcome) (told : Bool) :
    Asks (ctx.urls id) id told (writeBody hz ctx fd i id outcome).2.2 := by
  unfold writeBody
  split
  · rename_i due
    have parse := (urlWriteWrought ctx id outcome due.2).parse
    rw [Bool.or_false] at parse
    refine asksSame ((urlWriteStill ctx id outcome).core id) parse ?_
    dsimp only
    split
    · exact parseAsks hz _ fd i id told
    · exact asksNone _ id told
  · exact parseAsks hz ctx fd i id told

theorem tookAsks (hz : Nat) (ctx : Ctx) (fd : Bool) (i : Nat) (id : UrlId) (outcome : WriteOutcome) (told : Bool) :
    Asks (ctx.urls id) id told (writeTook hz ctx fd i id outcome).2.2 := by
  have init : (urlLocalFileInit (ctx.urls id)).core = (ctx.urls id).core ∧
      (urlLocalFileInit (ctx.urls id)).urlFlags.ngxParseOk = (ctx.urls id).urlFlags.ngxParseOk := by
    unfold urlLocalFileInit
    split <;> exact ⟨rfl,rfl⟩
  unfold writeTook
  dsimp only
  refine asksSame init.1 init.2 ?_
  rw [← modifySelf ctx id urlLocalFileInit]
  split
  · exact bodyAsks hz _ fd i id outcome told
  · exact asksNone _ id told

theorem answerAsks (hz : Nat) (ctx : Ctx) (fd : Bool) (i : Nat) (id : UrlId) (action : Sp2cAction) (ok : Bool) :
    Asks (ctx.urls id) id ok (writeAnswer hz ctx fd i id action ok).2.2 := by
  unfold writeAnswer
  cases ok with
  | false => exact asksNone _ id false
  | true =>
    dsimp only
    rw [if_pos rfl]
    cases action with
    | parse =>
      have down := @downAsks hz (ctx.setFlags id ({ · with ngxParseOk := true })) fd i id true Bool.noConfusion
      intro req sent
      obtain ⟨session,data,_⟩ := down req sent
      rw [Ctx.setFlags,modifySelf] at data
      exact ⟨session,data,Bool.noConfusion⟩
    | down => exact asksNone _ id true
    | getnext => exact asksNone _ id true

theorem writerAsks {hz : Nat} {w w' : Writer} {e : WriterEvent} {out : Option WriterOut}
    (wrote : ngxHttpSnoopingWriteProcess hz ctx w e = some (ctx',w',out)) {req : Sp2cReq} (sent : out = some (.send req)) :
    w.working = some req.sessionId ∧ req.urlData = (ctx.urls req.sessionId).urlBuf ∧
    (e.tells = false → (ctx.urls req.sessionId).urlFlags.ngxParseOk = false →
      req.sp2cAction = (ctx.urls req.sessionId).asks) := by
  unfold ngxHttpSnoopingWriteProcess at wrote
  split at wrote <;> try contradiction
  · cases Option.some.inj wrote
    cases sent
  · split at wrote
    · split at wrote
      · cases Option.some.inj wrote
        cases sent
      · cases Option.some.inj wrote
        cases sent
    · cases Option.some.inj wrote
      cases sent
  · rename_i fd i id outcome
    obtain ⟨rfl,data,action⟩ := tookAsks hz ctx fd i id outcome false req
      ((congrArg (·.2.2) (Option.some.inj wrote)).trans sent)
    exact ⟨rfl,data,fun _ => action rfl⟩
  · rename_i fd i id action ok
    obtain ⟨rfl,data,asked⟩ := answerAsks hz ctx fd i id action ok req
      ((congrArg (·.2.2) (Option.some.inj wrote)).trans sent)
    exact ⟨rfl,data,asked⟩
  · cases Option.some.inj wrote
    cases sent
  · split at wrote
    · cases Option.some.inj wrote
      cases sent
    · cases Option.some.inj wrote
      cases sent

end requests

end MipsElfExec.Snooping

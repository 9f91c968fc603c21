import MipsElfExec.Lib.Run
import MipsElfExec.Snooping.Steps

/-! The table under any interleaving of its operations and the write task, each
critical section one step: the table invariant holds throughout exactly as long as
every step leaves alone what another operation has changed since. -/
namespace MipsElfExec.Snooping
open CString MipsElfExec.Ring Section Run

variable {ctx ctx' : Ctx} {id : UrlId} {res : ResList → List UrlId} {hash slots : Nat → List UrlId}

inductive TableCall where
  | handle (name : Bytes) (action : C2spAction)
  | youku (name : Bytes)
  | record (server res : Bytes)
  | setbyId (id : Nat) (state : LocalDownState)
  deriving DecidableEq, Repr

def TableCall.prog : TableCall → TableProg
  | .handle name action => ngxHttpSpUrlHandle name action
  | .youku name => ngxHttpYoukuUrlAdd name
  | .record server res => ngxHttpSnoopingUrlRecord server res
  | .setbyId id state => ngxHttpSpUrlStateSetbyId id state

structure Tasks where
  ctx : Ctx
  threads : List TableProg
  writer : Writer

inductive TaskEvent where
  | call (c : TableCall)
  | advance (n : Nat)
  | write (e : WriterEvent)
  | clock (jiffies : Nat)
  | config (serverAddr : Nat)
  deriving DecidableEq, Repr

def Tasks.step (hz : Nat) (s : Tasks) : TaskEvent → Option Tasks
  | .call c => some { s with threads := s.threads ++ [c.prog] }
  | .advance n => (advance TableOp.exec s.ctx s.threads n).map fun (ctx,threads) =>
      { s with ctx := ctx,threads := threads }
  | .write e => (ngxHttpSnoopingWriteProcess hz s.ctx s.writer e).map fun (ctx,writer,_) =>
      { s with ctx := ctx,writer := writer }
  | .clock jiffies => some { s with ctx := { s.ctx with jiffies := jiffies } }
  | .config serverAddr => some { s with ctx := { s.ctx with serverAddr := serverAddr } }

def Tasks.start (jiffies : Nat) : Tasks := ⟨ngxHttpSnoopingInit jiffies,[],.idle⟩

def Inserts (ctx : Ctx) (key : Bytes) : Prop :=
  urlNextFree ctx = none ∨ ∀ id,(ctx.urls id).urlFlags.urlHash = true → (ctx.urls id).fileKeyName ≠ key

def Queues (ctx : Ctx) (id : UrlId) : Prop :=
  (ctx.urls id).urlFlags.cacheList = true ∨ (ctx.urls id).urlFlags.res = true

def Orderly (ctx : Ctx) : TableOp → Prop
  | .addNew _ key _ => Inserts ctx key
  | .youkuPut none _ key _ => Inserts ctx key
  | .recordNew _ key _ _ => Inserts ctx key
  | .delete id => Queues ctx id
  | .youkuQueue id => Queues ctx id
  | .recordQueue id => Queues ctx id
  | _ => True

def RemovesIdle (ctx : Ctx) : Writer → WriterEvent → Prop
  | .removing _ id,.remove => (ctx.urls id).urlAction = some .delete → (ctx.urls id).urlFlags.cacheList = false
  | _,_ => True

def StepsOrderly (s : Tasks) : TaskEvent → Prop
  | .advance n => ∀ op next,s.threads[n]? = some (.step op next) → Orderly s.ctx op
  | .write e => RemovesIdle s.ctx s.writer e
  | _ => True

theorem addFills (serverAddr : Nat) (rule : Rule) (key : Bytes) : Fills (addFill serverAddr rule key) key :=
  ⟨fun _ => rfl,fun _ => rfl⟩

theorem youkuFills (rule : Rule) (key : Bytes) : Fills (youkuFill rule key) key := ⟨fun _ => rfl,fun _ => rfl⟩

theorem recordFills (jiffies : Nat) (rule : Rule) (key : Bytes) : Fills (recordFill jiffies rule key) key :=
  ⟨fun _ => rfl,fun _ => rfl⟩

theorem putExact (T : Tidy ctx res hash slots) {fill : UrlEntry → UrlEntry} {key : Bytes} (F : Fills fill key)
    {hold : Ctx → UrlId → Ctx} (quiet : ∀ ctx id,Alike ctx (hold ctx id)) :
    TableInvariant (urlPut ctx none fill hold).2 ↔ Inserts ctx key := by
  unfold urlPut Inserts
  cases next : urlNextFree ctx with
  | none => exact iff_of_true ⟨res,hash,slots,T⟩ (Or.inl rfl)
  | some id =>
    refine (invariantAlike (quiet _ id)).trans ⟨fun after => Or.inr fun i => takeNew T.toListed F next after i,fun new => ?_⟩
    exact tidyTake T F next (new.resolve_left nofun)

theorem putFoundAlike (ctx : Ctx) (id : UrlId) (fill : UrlEntry → UrlEntry) {hold : Ctx → UrlId → Ctx}
    (quiet : ∀ ctx id,Alike ctx (hold ctx id)) : Alike ctx (urlPut ctx (some id) fill hold).2 :=
  quiet ctx id

theorem addHoldAlike (name : Bytes) (ctx : Ctx) (id : UrlId) : Alike ctx (addHold ctx id name) := alikeModify rfl

theorem youkuHoldAlike (name : Bytes) (ctx : Ctx) (id : UrlId) : Alike ctx (youkuHold ctx id name) := alikeModify rfl

theorem recordHoldAlike (server res : Bytes) (ctx : Ctx) (id : UrlId) : Alike ctx (recordHold ctx id server res) :=
  alikeModify rfl

theorem recordQueueAlike (ctx : Ctx) (id : UrlId) :
    Alike (httpUrlCacheAdd ctx id 0) ((TableOp.recordQueue id).exec ctx).2 :=
  alikeModify (f := fun e => { e.access with mimePostfix := [] }) rfl

theorem queueExact (T : Tidy ctx res hash slots) {mid : Ctx} (before : Alike ctx mid) (tick : Nat)
    (after : Alike (httpUrlCacheAdd mid id tick) ctx') : TableInvariant ctx' ↔ Queues ctx id := by
  have same : mid.place id = ctx.place id := congrFun before.place id
  rw [invariantAlike after]
  constructor
  · intro good
    have owned := cacheAddOwned good
    rw [same] at owned
    exact Or.inr owned
  · intro queues
    refine tidyCacheAdd (tidyAlike before T) tick ?_
    rw [same]
    exact queues

theorem setbyTidy (T : Tidy ctx res hash slots) (state : LocalDownState) :
    TableInvariant (stateSetby ctx id state) := by
  unfold stateSetby
  split
  · rename_i owned
    cases state with
    | ok => exact (queueExact T (alikeModify rfl) 0 (alikeRefl _)).mpr (Or.inr owned)
    | error => exact (queueExact T (alikeModify rfl) 11 (alikeRefl _)).mpr (Or.inr owned)
    | init => exact (invariantAlike (alikeModify rfl)).mpr ⟨res,hash,slots,T⟩
    | ing => exact (invariantAlike (alikeModify rfl)).mpr ⟨res,hash,slots,T⟩
  · exact ⟨res,hash,slots,T⟩

theorem sectionExact (T : Tidy ctx res hash slots) (op : TableOp) :
    TableInvariant (op.exec ctx).2 ↔ Orderly ctx op := by
  have good : TableInvariant ctx := ⟨res,hash,slots,T⟩
  have still {ctx'} (A : Alike ctx ctx') : TableInvariant ctx' := (invariantAlike A).mpr good
  cases op with
  | find key => exact iff_of_true good trivial
  | addNew rule key name => exact putExact T (addFills _ rule key) (addHoldAlike name)
  | addMore id => exact iff_of_true (still (alikeModify rfl)) trivial
  | delete id => exact queueExact T (alikeModify rfl) 0 (alikeRefl _)
  | youkuPut found rule key name =>
    cases found with
    | none => exact putExact T (youkuFills rule key) (youkuHoldAlike name)
    | some id => exact iff_of_true (still (putFoundAlike ctx id _ (youkuHoldAlike name))) trivial
  | youkuQueue id => exact queueExact T (alikeRefl _) 1 (alikeRefl _)
  | recordNew rule key server path => exact putExact T (recordFills _ rule key) (recordHoldAlike server path)
  | recordQueue id => exact queueExact T (alikeRefl _) 0 (recordQueueAlike ctx id)
  | setby id state => exact iff_of_true (setbyTidy T state) trivial

structure Steady (s : Tasks) : Prop where
  tidy : TableInvariant s.ctx
  hand : ∀ id,s.writer.hand = some id → (s.ctx.place id).res = true

theorem sectionRes (ctx : Ctx) (op : TableOp) (owned : (ctx.place id).res = true) :
    ((op.exec ctx).2.place id).res = true := by
  have same {ctx'} (A : Alike ctx ctx') : (ctx'.place id).res = true := by rw [A.place]; exact owned
  have queue {mid ctx' : Ctx} {j tick} (before : Alike ctx mid) (after : Alike (httpUrlCacheAdd mid j tick) ctx') :
      (ctx'.place id).res = true := by
    rw [after.place,placeCacheAdd]
    split
    · rename_i ours
      rw [before.place,← ours]
      exact owned
    · rw [before.place]
      exact owned
  have put {fill : UrlEntry → UrlEntry} {key : Bytes} (F : Fills fill key) {hold : Ctx → UrlId → Ctx}
      (quiet : ∀ ctx id,Alike ctx (hold ctx id)) (found : Option UrlId) :
      ((urlPut ctx found fill hold).2.place id).res = true := by
    unfold urlPut
    cases found with
    | some j => exact same (quiet ctx j)
    | none =>
      cases urlNextFree ctx with
      | none => exact owned
      | some j =>
        dsimp only
        rw [(quiet _ j).place,placeTake F]
        split
        · rfl
        · exact owned
  cases op with
  | find key => exact owned
  | addNew rule key name => exact put (addFills _ rule key) (addHoldAlike name) none
  | addMore j => exact same (alikeModify rfl)
  | delete j => exact queue (alikeModify rfl) (alikeRefl _)
  | youkuPut found rule key name => exact put (youkuFills rule key) (youkuHoldAlike name) found
  | youkuQueue j => exact queue (alikeRefl _) (alikeRefl _)
  | recordNew rule key server path => exact put (recordFills _ rule key) (recordHoldAlike server path) none
  | recordQueue j => exact queue (alikeRefl _) (recordQueueAlike ctx j)
  | setby j state =>
    unfold TableOp.exec stateSetby
    dsimp only
    split
    · cases state with
      | ok => exact queue (alikeModify rfl) (alikeRefl _)
      | error => exact queue (alikeModify rfl) (alikeRefl _)
      | init => exact same (alikeModify rfl)
      | ing => exact same (alikeModify rfl)
    · exact owned

theorem tickAlike (ctx : Ctx) (tick : Nat) : Alike ctx { ctx with writeTick := tick } := ⟨rfl,rfl,rfl,rfl,rfl,rfl⟩

theorem writerExact {w w' : Writer} {e : WriterEvent} {out : Option WriterOut} (inv : TableInvariant ctx)
    (held : ∀ id,w.hand = some id → (ctx.place id).res = true) (W : WriterStep ctx w e ctx' w' out) :
    (TableInvariant ctx' ↔ RemovesIdle ctx w e) ∧ ∀ id,w'.hand = some id → (ctx'.place id).res = true := by
  obtain ⟨res,hash,slots,T⟩ := id inv
  cases W with
  | quiet free hand =>
    refine ⟨iff_of_true ((invariantAlike (tickAlike ctx _)).mpr inv) ?_,fun id other => ?_⟩
    · cases w <;> trivial
    · rw [hand] at other
      cases other
  | pop got =>
    obtain ⟨good,owned⟩ := tidyCacheGet T got
    refine ⟨iff_of_true good trivial,fun id same => ?_⟩
    cases same
    exact owned
  | work hand worked =>
    rename_i id
    have mine : w.hand = some id := by
      cases w <;> first | exact hand | cases hand
    obtain ⟨good,owned⟩ := workedTidy T (held id mine) worked.worked
    refine ⟨iff_of_true good ?_,fun j same => ?_⟩
    · cases w <;> trivial
    · rcases worked.hand with none_ | some_
      · exact absurd (none_.symm.trans same) nofun
      · cases some_.symm.trans same
        exact owned
  | log => exact ⟨iff_of_true inv trivial,held⟩
  | @remove i id due =>
    refine ⟨⟨fun good _ => releaseIdle T good,fun idle => tidyRelease T (held id rfl) (idle due)⟩,nofun⟩
  | leave other => exact ⟨iff_of_true inv fun due => absurd due other,nofun⟩

theorem stepExact {hz : Nat} {s t : Tasks} {e : TaskEvent} (good : Steady s) (next : s.step hz e = some t) :
    (TableInvariant t.ctx ↔ StepsOrderly s e) ∧ (TableInvariant t.ctx → Steady t) := by
  obtain ⟨inv,held⟩ := good
  cases e with
  | call c =>
    cases Option.some.inj next
    exact ⟨iff_of_true inv trivial,fun _ => ⟨inv,held⟩⟩
  | advance n =>
    obtain ⟨⟨ctx,threads⟩,moved,same⟩ := Option.map_eq_some_iff.mp next
    cases same
    obtain ⟨op,rest,thread,rfl,_⟩ := advanceSection moved
    obtain ⟨res,hash,slots,T⟩ := inv
    refine ⟨(sectionExact T op).trans ⟨fun orderly op' rest' thread' => ?_,fun all => all op rest thread⟩,
      fun inv => ⟨inv,fun id mine => sectionRes s.ctx op (held id mine)⟩⟩
    cases thread.symm.trans thread'
    exact orderly
  | write e =>
    obtain ⟨⟨ctx,writer,out⟩,wrote,same⟩ := Option.map_eq_some_iff.mp next
    cases same
    obtain ⟨iff,owned⟩ := writerExact inv held (writerSteps wrote)
    exact ⟨iff,fun inv => ⟨inv,owned⟩⟩
  | clock jiffies =>
    cases Option.some.inj next
    have alike : Alike s.ctx { s.ctx with jiffies := jiffies } := ⟨rfl,rfl,rfl,rfl,rfl,rfl⟩
    exact ⟨iff_of_true ((invariantAlike alike).mpr inv) trivial,fun inv => ⟨inv,held⟩⟩
  | config serverAddr =>
    cases Option.some.inj next
    have alike : Alike s.ctx { s.ctx with serverAddr := serverAddr } := ⟨rfl,rfl,rfl,rfl,rfl,rfl⟩
    exact ⟨iff_of_true ((invariantAlike alike).mpr inv) trivial,fun inv => ⟨inv,held⟩⟩

end MipsElfExec.Snooping

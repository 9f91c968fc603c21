import MipsElfExec.Lib.Run
import MipsElfExec.Snooping.Lists
import MipsElfExec.Snooping.Writer

/-! The timer wheel. Entries are queued with a delay from any context; the write task takes
them off the current slot until it finds that slot empty, and then moves the clock on, which
it does outside the lock. -/
namespace MipsElfExec.Snooping
open CString MipsElfExec.Ring Run

def httpUrlCacheDataAdd (ctx : Ctx) (id : UrlId) (tick : Nat) : Ctx := httpUrlCacheAdd ctx id tick

inductive WheelTask where
  | idle
  | pass (i : Nat)
  | empty
  deriving DecidableEq, Repr

-- The last four count the adds that queued an entry and the returns of it, and keep the latest add.
structure Wheel where
  ctx : Ctx
  task : WheelTask := .idle
  adds : UrlId → Nat := fun _ => 0
  gets : UrlId → Nat := fun _ => 0
  addTick : UrlId → Nat := fun _ => 0
  delay : UrlId → Nat := fun _ => 0

inductive WheelEvent where
  | add (id : UrlId) (tick : Fin httpCacheTimeOut)
  | dataAdd (id : UrlId) (tick : Fin httpCacheTimeOut)
  | begin
  | get
  | increment
  deriving DecidableEq, Repr

def Wheel.isQueued (s : Wheel) (id : UrlId) : Bool := (s.ctx.urls id).urlFlags.cacheList

def Wheel.slot (s : Wheel) : Nat := s.ctx.writeTick % httpCacheTimeOut

def Wheel.due (s : Wheel) (id : UrlId) : Nat := s.addTick id + s.delay id

def Wheel.queue (s : Wheel) (id : UrlId) (tick : Nat) (ctx : Ctx) : Wheel :=
  if s.isQueued id then { s with ctx := ctx }
  else
    { s with
      ctx := ctx
      adds := Function.update s.adds id (s.adds id + 1)
      addTick := Function.update s.addTick id s.ctx.writeTick
      delay := Function.update s.delay id tick }

def Wheel.step (s : Wheel) : WheelEvent → Option Wheel
  | .add id tick => some (s.queue id tick (httpUrlCacheAdd s.ctx id tick))
  | .dataAdd id tick => some (s.queue id tick (httpUrlCacheDataAdd s.ctx id tick))
  | .begin =>
    match s.task with
    | .idle => some { s with task := .pass 0 }
    | _ => none
  | .get =>
    match s.task with
    | .pass i =>
      if i < 32 then match httpUrlCacheGet s.ctx with
        | some (id,ctx) =>
          some { s with ctx := ctx,task := .pass (i + 1),gets := Function.update s.gets id (s.gets id + 1) }
        | none => some { s with task := .empty }
      else some { s with task := .idle }
    | _ => none
  | .increment =>
    match s.task with
    | .empty => some { s with ctx := { s.ctx with writeTick := s.ctx.writeTick + 1 },task := .idle }
    | _ => none

def Wheel.start (jiffies : Nat) : Wheel := { ctx := ngxHttpSnoopingInit jiffies }

structure Wheel.Sound (s : Wheel) : Prop where
  once : ∀ id,s.adds id = s.gets id + if s.isQueued id then 1 else 0
  due : ∀ id,s.isQueued id = true → s.ctx.writeTick ≤ s.due id
  fair : s.task = .empty → listEmpty s.ctx.cacheLinks s.slot = true

def Wheel.serves (s : Wheel) (e : WheelEvent) (t : Wheel) : Prop :=
  match e with
  | .add id _ | .dataAdd id _ => s.isQueued id = true → t = s
  | .get => ∀ id,t.gets id ≠ s.gets id →
    t.gets id = s.gets id + 1 ∧ s.isQueued id = true ∧ s.due id ≤ s.ctx.writeTick ∧ s.slot = s.due id % httpCacheTimeOut
  | .increment => listEmpty s.ctx.cacheLinks s.slot = true
  | .begin => True

def Wheel.stays (s : Wheel) : WheelEvent → Prop
  | .add id tick | .dataAdd id tick => s.task = .empty → s.isQueued id = true ∨ tick.val ≠ 0
  | _ => True

structure Turning (s : Wheel) (slots : Nat → List UrlId) : Prop extends s.Sound where
  rings : Rings s.ctx.cacheLinks slots
  queued : ∀ id,s.isQueued id = true ↔ id ∈ slots (s.due id % httpCacheTimeOut)
  slots : ∀ {id k},id ∈ slots k → k = s.due id % httpCacheTimeOut
  near : ∀ id,s.isQueued id = true → s.due id < s.ctx.writeTick + httpCacheTimeOut

variable {s t : Wheel} {id : UrlId} {slots : Nat → List UrlId}

theorem queueSame (tick : Nat) (set : s.isQueued id = true) : s.queue id tick (httpUrlCacheAdd s.ctx id tick) = s := by
  unfold Wheel.queue
  rw [if_pos set]
  unfold httpUrlCacheAdd
  rw [if_pos (show (s.ctx.urls id).urlFlags.cacheList = true from set)]

structure Joins (s : Wheel) (id : UrlId) (tick : Nat) (t : Wheel) : Prop where
  task : t.task = s.task
  clock : t.ctx.writeTick = s.ctx.writeTick
  links : t.ctx.cacheLinks = listAddTail s.ctx.cacheLinks id ((s.ctx.writeTick + tick) % httpCacheTimeOut)
  isQueued : ∀ j,t.isQueued j = if j = id then true else s.isQueued j
  due : ∀ j,t.due j = if j = id then s.ctx.writeTick + tick else s.due j
  adds : ∀ j,t.adds j = if j = id then s.adds id + 1 else s.adds j
  gets : t.gets = s.gets

theorem queueJoins (tick : Nat) (clear : s.isQueued id = false) :
    Joins s id tick (s.queue id tick (httpUrlCacheAdd s.ctx id tick)) := by
  have off : ¬(s.ctx.urls id).urlFlags.cacheList = true := Bool.eq_false_iff.mp clear
  have taken : s.queue id tick (httpUrlCacheAdd s.ctx id tick) =
      { s with
        ctx := (s.ctx.setCache (listAddTail s.ctx.cacheLinks id ((s.ctx.writeTick + tick) % httpCacheTimeOut))
          (s.ctx.cacheNum + 1)).setFlags id ({ · with cacheList := true })
        adds := Function.update s.adds id (s.adds id + 1)
        addTick := Function.update s.addTick id s.ctx.writeTick
        delay := Function.update s.delay id tick } := by
    unfold Wheel.queue httpUrlCacheAdd
    rw [if_neg (Bool.eq_false_iff.mp clear),if_neg off]
  rw [taken]
  refine ⟨rfl,rfl,rfl,fun j => ?_,fun j => ?_,fun j => ?_,rfl⟩
  · unfold Wheel.isQueued Ctx.setFlags
    rw [modifyUrls]
    split <;> rfl
  · simp only [Wheel.due,Function.update_apply]
    split <;> rfl
  · exact Function.update_apply s.adds id _ j

theorem wheelStart (jiffies : Nat) : Turning (Wheel.start jiffies) fun _ => [] where
  once := fun _ => rfl
  due := fun _ set => (Bool.false_ne_true set).elim
  fair := fun done => by cases done
  rings := emptyRings
  queued := fun id => ⟨fun set => (Bool.false_ne_true set).elim,fun mem => by cases mem⟩
  slots := fun mem => by cases mem
  near := fun _ set => (Bool.false_ne_true set).elim

theorem joinsTurning (T : Turning s slots) {tick : Nat} (small : tick < httpCacheTimeOut) (clear : s.isQueued id = false)
    (J : Joins s id tick t) :
    (t.Sound ↔ (s.task = .empty → tick ≠ 0)) ∧ (t.Sound → ∃ slots,Turning t slots) := by
  have off (k : Nat) : id ∉ slots k := by
    intro mem
    rw [T.slots mem,← T.queued id,clear] at mem
    cases mem
  have rings := J.links ▸ ringsAddTail T.rings off ((s.ctx.writeTick + tick) % httpCacheTimeOut)
  have here : t.slot = s.slot := congrArg (· % httpCacheTimeOut) J.clock
  have once (j : UrlId) : t.adds j = t.gets j + if t.isQueued j then 1 else 0 := by
    rw [J.adds,J.gets,J.isQueued,T.once,T.once]
    split
    · rename_i same
      rw [same,clear]
      rfl
    · rfl
  have due (j : UrlId) (set : t.isQueued j = true) : t.ctx.writeTick ≤ t.due j := by
    rw [J.isQueued] at set
    rw [J.clock,J.due]
    split at set
    · rename_i same
      rw [if_pos same]
      exact Nat.le_add_right _ _
    · rename_i other
      rw [if_neg other]
      exact T.due j set
  have fair : listEmpty t.ctx.cacheLinks t.slot = true ↔
      slots s.slot = [] ∧ (s.ctx.writeTick + tick) % httpCacheTimeOut ≠ s.slot := by
    rw [ringsEmpty rings,here]
    rcases Decidable.em ((s.ctx.writeTick + tick) % httpCacheTimeOut = s.slot) with same | other
    · rw [same,Function.update_self]
      simp
    · rw [Function.update_of_ne (Ne.symm other)]
      simp [other]
  have moved : (s.ctx.writeTick + tick) % httpCacheTimeOut ≠ s.slot ↔ tick ≠ 0 := by
    unfold Wheel.slot
    unfold httpCacheTimeOut at small ⊢
    omega
  have sound : t.Sound ↔ (s.task = .empty → tick ≠ 0) := by
    constructor
    · intro S done
      exact moved.mp (fair.mp (S.fair (J.task.trans done))).2
    · intro late
      refine ⟨once,due,fun done => fair.mpr ?_⟩
      have done := J.task.symm.trans done
      exact ⟨(ringsEmpty T.rings _).mp (T.fair done),moved.mpr (late done)⟩
  refine ⟨sound,fun S => ⟨_,S,rings,fun j => ?_,fun {j k} mem => ?_,fun j set => ?_⟩⟩
  · rw [memAddTail,J.isQueued,J.due]
    split
    · rename_i same
      exact iff_of_true rfl (Or.inr ⟨same,rfl⟩)
    · rename_i other
      rw [T.queued]
      simp [other]
  · rw [J.due]
    rcases memAddTail.mp mem with old | ⟨same,new⟩
    · rw [if_neg fun same : j = id => off k (same ▸ old)]
      exact T.slots old
    · rw [if_pos same]
      exact new
  · rw [J.isQueued] at set
    rw [J.clock,J.due]
    split at set
    · rename_i same
      rw [if_pos same]
      exact Nat.add_lt_add_left small _
    · rename_i other
      rw [if_neg other]
      exact T.near j set

theorem queueTurning (T : Turning s slots) {tick : Nat} (small : tick < httpCacheTimeOut)
    (t : Wheel) (next : s.queue id tick (httpUrlCacheAdd s.ctx id tick) = t) :
    ((s.isQueued id = true → t = s) ∧ t.Sound ↔ (s.task = .empty → s.isQueued id = true ∨ tick ≠ 0)) ∧
    (t.Sound → ∃ slots,Turning t slots) := by
  cases set : s.isQueued id with
  | true =>
    cases (queueSame tick set).symm.trans next
    exact ⟨iff_of_true ⟨fun _ => rfl,T.toSound⟩ fun _ => Or.inl rfl,fun _ => ⟨slots,T⟩⟩
  | false =>
    obtain ⟨sound,turning⟩ := joinsTurning T small set (next ▸ queueJoins tick set)
    refine ⟨?_,turning⟩
    rw [sound]
    simp

theorem slotDue (T : Turning s slots) (mem : id ∈ slots s.slot) : s.isQueued id = true ∧ s.due id = s.ctx.writeTick := by
  have place := T.slots mem
  have set : s.isQueued id = true := (T.queued id).mpr (place ▸ mem)
  have low := T.due id set
  have high := T.near id set
  refine ⟨set,?_⟩
  unfold Wheel.slot at place
  unfold httpCacheTimeOut at place high
  omega

theorem getTurning (T : Turning s slots) {ctx : Ctx} (got : httpUrlCacheGet s.ctx = some (id,ctx)) (i : Nat) :
    (s.isQueued id = true ∧ s.due id = s.ctx.writeTick) ∧ ∃ slots,Turning
      { s with ctx := ctx,task := .pass i,gets := Function.update s.gets id (s.gets id + 1) } slots := by
  obtain ⟨first,links,_⟩ := cacheGetLinks got
  have here := ringsFirst T.rings s.slot
  rw [show s.ctx.cacheLinks.next (.head s.slot) = .item id from first] at here
  split at here <;> try contradiction
  rename_i j rest items
  cases Node.item.inj here
  have items : slots s.slot = [] ++ id :: rest := items
  have queued : id ∈ slots s.slot := by
    rw [items]
    simp
  obtain ⟨set,due⟩ := slotDue T queued
  have clock : ctx.writeTick = s.ctx.writeTick := by
    unfold httpUrlCacheGet at got
    split at got <;> try contradiction
    cases Option.some.inj got
    rfl
  have queued (j : UrlId) : (ctx.urls j).urlFlags.cacheList = if j = id then false else s.isQueued j := by
    unfold httpUrlCacheGet at got
    split at got <;> try contradiction
    cases Option.some.inj got
    unfold Ctx.setFlags
    rw [modifyUrls]
    split <;> rfl
  refine ⟨⟨set,due⟩,_,⟨fun j => ?_,fun j on => ?_,fun done => by cases done⟩,links ▸ ringsDelInit T.rings items,
    fun j => ?_,fun {j k} mem => ?_,fun j on => ?_⟩
  · have old := T.once j
    simp only [Wheel.isQueued,queued,Function.update_apply]
    split
    · rename_i same
      rw [same,set] at old
      rw [same,old]
      rfl
    · exact old
  · rw [clock]
    simp only [Wheel.isQueued,queued] at on
    split at on
    · cases on
    · exact T.due j on
  · rw [memDel T.rings items]
    simp only [Wheel.isQueued,queued]
    split
    · rename_i same
      simp [same]
    · rename_i other
      refine (T.queued j).trans ⟨fun mem => ⟨mem,other⟩,And.left⟩
  · exact T.slots ((memDel T.rings items).mp mem).1
  · rw [clock]
    simp only [Wheel.isQueued,queued] at on
    split at on
    · cases on
    · exact T.near j on

theorem incrementTurning (T : Turning s slots) (done : s.task = .empty) :
    Turning { s with ctx := { s.ctx with writeTick := s.ctx.writeTick + 1 },task := .idle } slots := by
  have none_ := (ringsEmpty T.rings _).mp (T.fair done)
  refine ⟨⟨T.once,fun j on => ?_,fun other => by cases other⟩,T.rings,T.queued,T.slots,fun j on => ?_⟩
  · have low := T.due j on
    refine Nat.lt_of_le_of_ne low fun (same : s.ctx.writeTick = s.due j) => ?_
    have mem := (T.queued j).mp on
    rw [← same,show slots (s.ctx.writeTick % httpCacheTimeOut) = [] from none_] at mem
    cases mem
  · exact Nat.lt_succ_of_lt (T.near j on)

theorem taskTurning (T : Turning s slots) (task : WheelTask) (quiet : task = .empty → listEmpty s.ctx.cacheLinks s.slot = true) :
    Turning { s with task := task } slots :=
  ⟨⟨T.once,T.due,quiet⟩,T.rings,T.queued,T.slots,T.near⟩

theorem getNone (T : Turning s slots) (none_ : httpUrlCacheGet s.ctx = none) : listEmpty s.ctx.cacheLinks s.slot = true := by
  rw [ringsEmpty T.rings]
  have first := ringsFirst T.rings s.slot
  unfold httpUrlCacheGet at none_
  split at none_ <;> try contradiction
  rename_i k head
  rw [show s.ctx.cacheLinks.next (.head s.slot) = .head k from head] at first
  split at first <;> try contradiction
  assumption

theorem wheelStep {e : WheelEvent} (turning : ∃ slots,Turning s slots) (next : s.step e = some t) :
    (s.serves e t ∧ t.Sound ↔ s.stays e) ∧ (s.serves e t ∧ t.Sound → ∃ slots,Turning t slots) := by
  obtain ⟨slots,T⟩ := turning
  have good {slots' : Nat → List UrlId} (serves : s.serves e t) (stays : s.stays e) (T' : Turning t slots') :
      (s.serves e t ∧ t.Sound ↔ s.stays e) ∧ (s.serves e t ∧ t.Sound → ∃ slots,Turning t slots) :=
    ⟨iff_of_true ⟨serves,T'.toSound⟩ stays,fun _ => ⟨slots',T'⟩⟩
  cases e with
  | add id tick =>
    obtain ⟨iff,turning⟩ := queueTurning T tick.isLt t (Option.some.inj next)
    exact ⟨iff,fun both => turning both.2⟩
  | dataAdd id tick =>
    obtain ⟨iff,turning⟩ := queueTurning T tick.isLt t (Option.some.inj next)
    exact ⟨iff,fun both => turning both.2⟩
  | begin =>
    simp only [Wheel.step] at next
    split at next <;> try contradiction
    cases Option.some.inj next
    exact good trivial trivial (taskTurning T (.pass 0) fun done => by cases done)
  | get =>
    simp only [Wheel.step] at next
    split at next <;> try contradiction
    split at next
    · split at next
      · rename_i id ctx got
        cases Option.some.inj next
        obtain ⟨⟨set,due⟩,slots',T'⟩ := getTurning T got _
        refine good (fun j more => ?_) trivial T'
        simp only [Function.update_apply] at more ⊢
        split at more
        · rename_i same
          rw [if_pos same,same]
          exact ⟨rfl,set,Nat.le_of_eq due,congrArg (· % httpCacheTimeOut) due.symm⟩
        · exact (more rfl).elim
      · rename_i none_
        cases Option.some.inj next
        exact good (fun j more => (more rfl).elim) trivial (taskTurning T .empty fun _ => getNone T none_)
    · cases Option.some.inj next
      exact good (fun j more => (more rfl).elim) trivial (taskTurning T .idle fun done => by cases done)
  | increment =>
    simp only [Wheel.step] at next
    split at next <;> try contradiction
    rename_i done
    cases Option.some.inj next
    exact good (T.fair done) trivial (incrementTurning T done)

theorem passTurns {hz : Nat} {fd : Bool} {i : Nat} {out : Written} (task : s.task = .pass i)
    (next : ngxHttpSnoopingWriteProcess hz s.ctx (.pass fd i) .turn = some out) :
    ∃ es t,(es = [.get] ∨ es = [.get,.increment]) ∧ run Wheel.step s es = some t ∧ t.ctx = out.1 := by
  simp only [ngxHttpSnoopingWriteProcess] at next
  split at next
  · rename_i more
    cases got : httpUrlCacheGet s.ctx with
    | none =>
      rw [got] at next
      cases Option.some.inj next
      exact ⟨_,_,Or.inr rfl,by simp [run,Wheel.step,task,more,got]; rfl,rfl⟩
    | some found =>
      rw [got] at next
      cases Option.some.inj next
      exact ⟨_,_,Or.inl rfl,by simp [run,Wheel.step,task,more,got]; rfl,rfl⟩
  · rename_i last
    cases Option.some.inj next
    exact ⟨_,{ s with task := .idle },Or.inl rfl,by simp [run,Wheel.step,task,last],rfl⟩

/-- Every add that queues an entry is answered once, at its tick, and the clock never passes a queued entry,
exactly as long as nothing joins the current slot between the look at it and the move of the clock. -/
theorem wheelServesExactly (jiffies : Nat) (es : List WheelEvent) :
    Along Wheel.step (fun s e t => s.serves e t ∧ t.Sound) (Wheel.start jiffies) es ↔
      Along Wheel.step (fun s e _ => s.stays e) (Wheel.start jiffies) es :=
  alongStepExact wheelStep ⟨_,wheelStart jiffies⟩

theorem joinedLate : ¬Along Wheel.step (fun s e t => s.serves e t ∧ t.Sound) (Wheel.start 0)
    [.begin,.get,.add 5 ⟨0,by decide⟩,.increment] := by
  intro all
  have last := (((all _ rfl).2 _ rfl).2 _ rfl).2 _ rfl
  exact absurd (last.1.2.due 5 rfl) (by decide)

end MipsElfExec.Snooping

import MipsElfExec.Download.Isolation

/-! How long a task stays silent before it is timed out. A time-out of select(2) is counted for a task when its
socket was in the set; the handler counts it for every task that it meets on a list. -/
namespace MipsElfExec.Download
open CString MipsElfExec.Ring Run

section walk

def Sched.walk (s : Sched) : Nat → Node ListName TaskId → List TaskId
  | 0,_ => []
  | _ + 1,.head _ => []
  | n + 1,.item i => i :: s.walk n (s.links.next (.item i))

def Sched.onList (s : Sched) (k : ListName) : List TaskId := s.walk (s.count k).toNat (s.links.next (.head k))

def Sched.watched (s : Sched) : List Int :=
  s.ctrlSockfd :: (s.onList .downloading ++ s.onList .requesting).map fun i => (s.tasks i).info.sockfd

theorem walkList {s : Sched} {lists : ListName → List TaskId} (rings : Rings s.links lists) {k : ListName}
    (before rest : List TaskId) (items : lists k = before ++ rest) : s.walk rest.length (first k rest) = rest := by
  induction rest generalizing before with
  | nil => rfl
  | cons i rest ih =>
    have behind := ringsBehind rings items
    rw [List.length_cons]
    change i :: s.walk rest.length (s.links.next (.item i)) = _
    rw [behind,ih (before ++ [i]) (by rw [items]; simp)]

theorem onListIs {s : Sched} {lists : ListName → List TaskId} (L : Listed s lists none) (k : ListName) : s.onList k = lists k := by
  unfold Sched.onList
  rw [L.count,Int.toNat_natCast,ringsEnter L.rings]
  exact walkList L.rings [] (lists k) rfl

end walk

-- For every task how many select time-outs with its socket in a set there were since it connected or had an event.
structure Watch where
  sched : Sched
  silent : TaskId → Nat

def Watch.stirs (w : Watch) (i : TaskId) (io : Io) : Bool :=
  match w.sched.pc with
  | .loop .connect _ => match io.conn with
    | .connected _ => true
    | _ => false
  | .loop (.read readSet _) _ => (w.sched.tasks i).info.sockfd ∈ readSet
  | .loop (.write writeSet) _ => (w.sched.tasks i).info.sockfd ∈ writeSet
  | _ => false

def Watch.silence (w : Watch) : Event → TaskId → Nat
  | .select .timeout => fun i => if (w.sched.tasks i).info.sockfd ∈ w.sched.watched then w.silent i + 1 else w.silent i
  | .body i io => if w.stirs i io then Function.update w.silent i 0 else w.silent
  | _ => w.silent

def Watch.step (w : Watch) (e : Event) : Option Watch := (w.sched.step e).map fun t => ⟨t,w.silence e⟩

def Watch.start (files : Bytes → Option Bytes) (ctrlSockfd : Int) : Watch := ⟨Sched.start files ctrlSockfd,fun _ => 0⟩

def Watch.timedOut (w : Watch) (e : Event) (t : Watch) : Option TaskId :=
  match e,w.sched.pc with
  | .body i _,.loop .writeTimeout _ | .body i _,.loop .readTimeout _ =>
    if (t.sched.tasks i).info.stage = .finish then some i else none
  | _,_ => none

def Watch.due (w : Watch) (e : Event) (t : Watch) : Prop := ∀ i ∈ w.timedOut e t,w.silent i = httpDlTimeoutRetries

def Watch.sends (w : Watch) (e : Event) : Prop :=
  match e,w.sched.pc with
  | .body i _,.loop .writeTimeout _ => (w.sched.tasks i).timeoutTimes + 1 < httpDlTimeoutRetries
  | _,_ => True

def Loop.owes (rest : List TaskId) (i : TaskId) : Loop → Stage → Nat
  | .connect,stage => if stage = .sendRequest ∨ stage.reading = true then 1 else 0
  | .writeTimeout,stage => if stage = .sendRequest ∧ i ∈ rest ∨ stage.reading = true then 1 else 0
  | .readTimeout,stage => if stage.reading = true ∧ i ∈ rest then 1 else 0
  | _,_ => 0

def Pc.owes (rest : List TaskId) (i : TaskId) : Pc → Stage → Nat
  | .loop l _,stage => l.owes rest i stage
  | _,_ => 0

-- The event in which a task connects is counted for it at once.
def Task.lead : Stage → Nat
  | .sendRequest => 1
  | _ => 0

structure Tallied (w : Watch) (rest : List TaskId) (i : TaskId) : Prop where
  fresh : (w.sched.tasks i).info.stage = .init → (w.sched.tasks i).timeoutTimes = 0
  few : (w.sched.tasks i).info.stage = .sendRequest ∨ (w.sched.tasks i).info.stage.reading = true →
    (w.sched.tasks i).timeoutTimes < httpDlTimeoutRetries ∧
    (w.sched.tasks i).timeoutTimes + w.sched.pc.owes rest i (w.sched.tasks i).info.stage =
      w.silent i + Task.lead (w.sched.tasks i).info.stage

def Pc.stands (lists : ListName → List TaskId) (rest : List TaskId) : Pc → Prop
  | .top | .ctrl _ _ => True
  | .loop l pos => ∃ before,Walking lists l pos before rest
  | .done => ∀ k,lists k = []

def Tally (w : Watch) : Prop := ∃ lists rest,Listed w.sched lists none ∧ w.sched.pc.stands lists rest ∧
  ∀ k,∀ i ∈ lists k,Tallied w rest i

section tally
variable {w t : Watch} {s : Sched} {silent : TaskId → Nat} {lists : ListName → List TaskId} {rest rest' : List TaskId} {i : TaskId}
  {k : ListName} {l : Loop}

theorem heldList {stage : Stage} (holds : k.holds stage = true) :
    (stage = .sendRequest → k = .requesting) ∧ (stage.reading = true → k = .downloading) := by
  cases k <;> cases stage <;> simp_all [ListName.holds,Stage.reading]

theorem talliedMove (T : Tallied w rest i) (task : t.sched.tasks i = w.sched.tasks i)
    (balance : (w.sched.tasks i).info.stage = .sendRequest ∨ (w.sched.tasks i).info.stage.reading = true →
      t.sched.pc.owes rest' i (w.sched.tasks i).info.stage + w.silent i =
        t.silent i + w.sched.pc.owes rest i (w.sched.tasks i).info.stage) : Tallied t rest' i := by
  constructor
  · rw [task]
    exact T.fresh
  · rw [task]
    intro going
    obtain ⟨few,count⟩ := T.few going
    have moved := balance going
    exact ⟨few,by omega⟩

theorem tallyEnter (L : Listed s lists none) (swept : l.swept lists)
    (tallied : ∀ k,∀ i ∈ lists k,Tallied ⟨s.enter l,silent⟩ (lists l.list) i) : Tally ⟨s.enter l,silent⟩ :=
  ⟨lists,lists l.list,⟨L.rings,L.count,L.stages,L.away,L.live,L.gone,L.right⟩,⟨[],rfl,ringsEnter L.rings l.list,
    fun _ => rfl,swept⟩,tallied⟩

theorem tallyQuiet (L : Listed s lists none) (swept : l.swept lists) (tallied : ∀ k,∀ i ∈ lists k,Tallied ⟨s,silent⟩ rest i)
    (before : ∀ i stage,s.pc.owes rest i stage = 0) (after : ∀ i stage,l.owes (lists l.list) i stage = 0) :
    Tally ⟨s.enter l,silent⟩ :=
  tallyEnter L swept fun k i mem => talliedMove (tallied k i mem) rfl fun _ => by
    have none_ := after i (s.tasks i).info.stage
    have first := before i (s.tasks i).info.stage
    change l.owes (lists l.list) i (s.tasks i).info.stage + silent i = silent i + s.pc.owes rest i (s.tasks i).info.stage
    omega

theorem timeoutOwn (s : Sched) (i : TaskId) (k : ListName) (msg : String) : (s.timeout i k msg).tasks i =
    if (s.tasks i).timeoutTimes + 1 < httpDlTimeoutRetries then { s.tasks i with timeoutTimes := (s.tasks i).timeoutTimes + 1 }
    else ({ s.tasks i with timeoutTimes := (s.tasks i).timeoutTimes + 1 }.fail msg).setStage .finish := by
  unfold Sched.timeout
  dsimp only
  split
  · exact putSelf s i _
  · exact putSelf _ i _

theorem connectOwn (stage : (s.tasks i).info.stage = .init) (io : Io) :
    (((s.connect i io).tasks i).info.stage = .sendRequest ∧ ((s.connect i io).tasks i).timeoutTimes = (s.tasks i).timeoutTimes ∧
      ∃ fd,io.conn = .connected fd) ∨ ((s.connect i io).tasks i).info.stage = .finish := by
  unfold Sched.connect httpDlDelInfoFromInitialList
  rw [if_neg (not_not_intro stage)]
  dsimp only
  split
  · rename_i fd conn
    refine .inl ⟨?_,?_,fd,conn⟩
    · exact congrArg (fun task => task.info.stage) (putSelf (httpDlDelInfoFromList s i .initial) i _)
    · exact (congrArg Task.timeoutTimes (putSelf (httpDlDelInfoFromList s i .initial) i
        (((s.tasks i).setSockfd fd).setStage .sendRequest))).trans rfl
  · exact .inr (congrArg (fun task => task.info.stage) (putSelf _ i _))

theorem readOwn (stage : (s.tasks i).info.stage.reading = true) (io : Io) :
    (((httpDlHandleReadEvent s i io).tasks i).info.stage.reading = true ∧
      ((httpDlHandleReadEvent s i io).tasks i).timeoutTimes = (s.tasks i).timeoutTimes) ∨
    ((httpDlHandleReadEvent s i io).tasks i).info.stage = .finish := by
  have kept : Kept (s.tasks i).info (s.recv i io).1 (s.recv i io).2.2 := recvKept stage _ _ _
  have here : (s.received i io).tasks i = { s.tasks i with
    info := (s.recv i io).1,append := (s.recv i io).2.1.append,pos := (s.recv i io).2.1.pos } := putSelf s i _
  unfold httpDlHandleReadEvent
  rw [if_pos stage]
  dsimp only
  split
  · rw [here]
    exact .inl ⟨kept.reading,rfl⟩
  · exact .inr (congrArg (fun task => task.info.stage) (putSelf _ i _))

theorem writeOwn (stage : (s.tasks i).info.stage = .sendRequest) (io : Io) :
    (((httpDlHandleWriteEvent s i io).tasks i).info.stage = .parseStatusLine ∧
      ((httpDlHandleWriteEvent s i io).tasks i).timeoutTimes = (s.tasks i).timeoutTimes) ∨
    ((httpDlHandleWriteEvent s i io).tasks i).info.stage = .finish := by
  unfold httpDlHandleWriteEvent
  rw [if_neg (not_not_intro stage)]
  dsimp only
  split
  · have here : (httpDlAddInfoToList ((httpDlDelInfoFromList s i .requesting).put i ((s.tasks i).setStage .parseStatusLine)) i
        .downloading).tasks i = (s.tasks i).setStage .parseStatusLine := putSelf _ i _
    exact .inl ⟨congrArg (fun task => task.info.stage) here,(congrArg Task.timeoutTimes here).trans rfl⟩
  · exact .inr (congrArg (fun task => task.info.stage) (putSelf _ i _))

theorem owesOther {j : TaskId} (other : j ≠ i) (l : Loop) (stage : Stage) : l.owes (i :: rest) j stage = l.owes rest j stage := by
  cases l <;> simp [Loop.owes,other]

theorem silenceOther {j : TaskId} (other : j ≠ i) (w : Watch) (io : Io) : w.silence (.body i io) j = w.silent j := by
  unfold Watch.silence
  dsimp only
  split
  · exact Function.update_of_ne other _ _
  · rfl

theorem bodyOthers {pos : Node ListName TaskId} {j : TaskId} (T : Tallied ⟨s,silent⟩ (i :: rest) j) (pc : s.pc = .loop l (.item i))
    (other : j ≠ i) (io : Io) :
    Tallied ⟨{ s.body i io l with pc := .loop l pos },(⟨s,silent⟩ : Watch).silence (.body i io)⟩ rest j := by
  refine talliedMove T ((frameBody s i io l).others j other) fun _ => ?_
  dsimp only
  rw [silenceOther other,pc]
  dsimp only [Pc.owes]
  rw [owesOther other,Nat.add_comm]

theorem silenceOwn (w : Watch) (i : TaskId) (io : Io) : w.silence (.body i io) i = if w.stirs i io then 0 else w.silent i := by
  unfold Watch.silence
  dsimp only
  split
  · exact Function.update_self ..
  · rfl

theorem talliedEnd (stage : (w.sched.tasks i).info.stage = .finish) : Tallied w rest i := by
  constructor
  · exact fun bad => Stage.noConfusion (stage.symm.trans bad)
  · rw [stage]
    rintro (bad | bad) <;> cases bad

theorem talliedGo {silent : TaskId → Nat} {pc : Pc} {task : Task} (own : s.tasks i = task)
    (going : task.info.stage = .sendRequest ∨ task.info.stage.reading = true) (few : task.timeoutTimes < httpDlTimeoutRetries)
    (count : task.timeoutTimes + pc.owes rest i task.info.stage = silent i + Task.lead task.info.stage) :
    Tallied ⟨{ s with pc := pc },silent⟩ rest i := by
  subst own
  refine ⟨fun init => ?_,fun _ => ⟨few,count⟩⟩
  dsimp only at init
  rw [init] at going
  rcases going with bad | bad <;> cases bad

theorem leadReading {stage : Stage} (reading : stage.reading = true) : Task.lead stage = 0 := by
  cases stage <;> first | rfl | cases reading

theorem timeoutStays {pos : Node ListName TaskId} {msg : String} (one : l.owes (i :: rest) i (s.tasks i).info.stage = 1)
    (none_ : l.owes rest i (s.tasks i).info.stage = 0)
    (going : (s.tasks i).info.stage = .sendRequest ∨ (s.tasks i).info.stage.reading = true)
    (count : (s.tasks i).timeoutTimes + l.owes (i :: rest) i (s.tasks i).info.stage =
      silent i + Task.lead (s.tasks i).info.stage) :
    Tallied ⟨{ s.timeout i k msg with pc := .loop l pos },silent⟩ rest i := by
  have own := timeoutOwn s i k msg
  split at own
  · rename_i more
    refine talliedGo own going more ?_
    change (s.tasks i).timeoutTimes + 1 + l.owes rest i (s.tasks i).info.stage = _
    rw [none_,← count,one]
  · exact talliedEnd (congrArg (fun task => task.info.stage) own)

theorem bodyOwn {pos : Node ListName TaskId} (stage : l.list.holds (s.tasks i).info.stage = true) (T : Tallied ⟨s,silent⟩ (i :: rest) i)
    (pc : s.pc = .loop l (.item i)) (once : i ∉ rest) (going : l.ends = false) (io : Io) :
    Tallied ⟨{ s.body i io l with pc := .loop l pos },(⟨s,silent⟩ : Watch).silence (.body i io)⟩ rest i := by
  have few := T.few
  have quiet := silenceOwn ⟨s,silent⟩ i io
  unfold Watch.stirs at quiet
  dsimp only at few quiet
  rw [pc] at few quiet
  dsimp only [Pc.owes] at few quiet
  cases l with
  | connect =>
    have init : (s.tasks i).info.stage = .init := beq_iff_eq.mp stage
    rcases connectOwn init io with ⟨sends,same,fd,conn⟩ | ends
    · rw [conn,if_pos rfl] at quiet
      refine talliedGo rfl (.inl sends) ?_ ?_
      · change ((s.connect i io).tasks i).timeoutTimes < _
        rw [same,show (s.tasks i).timeoutTimes = 0 from T.fresh init]
        decide
      · change ((s.connect i io).tasks i).timeoutTimes + Loop.owes rest i .connect ((s.connect i io).tasks i).info.stage =
          _ + Task.lead ((s.connect i io).tasks i).info.stage
        rw [same,show (s.tasks i).timeoutTimes = 0 from T.fresh init,quiet,sends]
        rfl
    · exact talliedEnd ends
  | writeTimeout =>
    have sends : (s.tasks i).info.stage = .sendRequest := beq_iff_eq.mp stage
    obtain ⟨_,count⟩ := few (.inl sends)
    rw [if_neg Bool.false_ne_true] at quiet
    rw [← quiet] at count
    refine timeoutStays ?_ ?_ (.inl sends) count
    · simp [Loop.owes,sends]
    · simp [Loop.owes,sends,once,Stage.reading]
  | readTimeout =>
    obtain ⟨_,count⟩ := few (.inr stage)
    rw [if_neg Bool.false_ne_true] at quiet
    rw [← quiet] at count
    have reading : (s.tasks i).info.stage.reading = true := stage
    refine timeoutStays ?_ ?_ (.inr stage) count
    · simp [Loop.owes,reading]
    · simp [Loop.owes,once]
  | read readSet writeSet =>
    have woke : (s.wake i).tasks i = { s.tasks i with timeoutTimes := 0 } := putSelf s i _
    unfold Sched.body
    rcases Decidable.em ((s.tasks i).info.sockfd ∈ readSet) with ready | idle
    · rw [if_pos (decide_eq_true ready)] at quiet
      dsimp only
      rw [if_pos ready]
      rcases @readOwn (s.wake i) i (by rw [woke]; exact stage) io with ⟨reading,same⟩ | ends
      · rw [woke] at same
        exact talliedGo rfl (.inr reading) (same ▸ Nat.zero_lt_succ 8) (by rw [same,quiet,leadReading reading]; rfl)
      · exact talliedEnd ends
    · rw [if_neg (by rw [decide_eq_true_iff]; exact idle)] at quiet
      dsimp only
      rw [if_neg idle]
      obtain ⟨small,count⟩ := few (.inr stage)
      exact talliedGo rfl (.inr stage) small (by rw [quiet]; exact count)
  | write writeSet =>
    have woke : (s.wake i).tasks i = { s.tasks i with timeoutTimes := 0 } := putSelf s i _
    have sends : (s.tasks i).info.stage = .sendRequest := beq_iff_eq.mp stage
    unfold Sched.body
    rcases Decidable.em ((s.tasks i).info.sockfd ∈ writeSet) with ready | idle
    · rw [if_pos (decide_eq_true ready)] at quiet
      dsimp only
      rw [if_pos ready]
      rcases @writeOwn (s.wake i) i (by rw [woke]; exact sends) io with ⟨parsing,same⟩ | ends
      · rw [woke] at same
        exact talliedGo rfl (.inr (by rw [parsing]; rfl)) (same ▸ Nat.zero_lt_succ 8) (by rw [same,quiet,parsing]; rfl)
      · exact talliedEnd ends
    · rw [if_neg (by rw [decide_eq_true_iff]; exact idle)] at quiet
      dsimp only
      rw [if_neg idle]
      obtain ⟨small,count⟩ := few (.inl sends)
      exact talliedGo rfl (.inl sends) small (by rw [quiet]; exact count)
  | finish => cases going
  | destroy k => cases going

theorem tallyBody (L : Listed s lists none) {before : List TaskId} (W : Walking lists l (.item i) before (i :: rest))
    (pc : s.pc = .loop l (.item i)) (tallied : ∀ k,∀ j ∈ lists k,Tallied ⟨s,silent⟩ (i :: rest) j) (io : Io) :
    Tally ⟨{ s.body i io l with pc := .loop l (s.links.next (.item i)) },(⟨s,silent⟩ : Watch).silence (.body i io)⟩ := by
  have mem : i ∈ lists l.list := by
    rw [W.items]
    simp
  have once : i ∉ rest := by
    have nodup := L.rings.nodup l.list
    rw [W.items,List.nodup_append] at nodup
    exact (List.nodup_cons.mp nodup.2.1).1
  obtain ⟨after,listed,effect⟩ := bodyListed L l mem io
  obtain ⟨before',walking⟩ := bodyWalking L W effect
  refine ⟨after,rest,⟨listed.rings,listed.count,listed.stages,listed.away,listed.live,listed.gone,listed.right⟩,
    ⟨before',walking⟩,fun k j on => ?_⟩
  rcases Decidable.em (j = i) with rfl | other
  · have going : l.ends = false := by
      rcases effect with ⟨_,rfl⟩ | ⟨going,_⟩
      · exact absurd on (offDrop L.rings mem k)
      · exact going
    exact bodyOwn (L.stages l.list j mem) (tallied l.list j mem) pc once going io
  · have drop {m : ListName} (kept : j ∈ dropItem lists l.list i m) : j ∈ lists m := ((memDrop L.rings mem).mp kept).1
    have old : ∃ m,j ∈ lists m := by
      rcases effect with ⟨_,rfl⟩ | ⟨_,moved⟩
      · exact ⟨k,drop on⟩
      · cases moved with
        | stay => exact ⟨k,on⟩
        | move far =>
          rcases memAddItem.mp on with kept | ⟨same,_⟩
          · exact ⟨k,drop kept⟩
          · exact absurd same other
    obtain ⟨m,was⟩ := old
    exact bodyOthers (tallied m j was) pc other io

theorem leaveQuiet {next : Loop} (same : s.leave l = s.enter next) (first : l ≠ .connect) (second : l ≠ .writeTimeout)
    (rest : List TaskId) (i : TaskId) (stage : Stage) : next.owes rest i stage = l.owes [] i stage := by
  have pc := congrArg Sched.pc same
  cases l with
  | connect => exact absurd rfl first
  | writeTimeout => exact absurd rfl second
  | readTimeout =>
    cases (Pc.loop.inj pc).1
    exact (if_neg fun both => List.not_mem_nil both.2).symm
  | read readSet writeSet =>
    cases (Pc.loop.inj pc).1
    rfl
  | destroy k =>
    cases k with
    | initial =>
      cases (Pc.loop.inj pc).1
      rfl
    | requesting =>
      cases (Pc.loop.inj pc).1
      rfl
    | downloading =>
      cases (Pc.loop.inj pc).1
      rfl
    | finished => cases pc
  | finish | write _ => cases pc

theorem tallyLeave (L : Listed s lists none) {before : List TaskId} (W : Walking lists l (.head l.list) before rest)
    (pc : s.pc = .loop l (.head l.list)) (tallied : ∀ k,∀ j ∈ lists k,Tallied ⟨s,silent⟩ rest j) : Tally ⟨s.leave l,silent⟩ := by
  have none_ := walkingEnd W
  subst none_
  have onward {next : Loop} (same : s.leave l = s.enter next) (swept : next.swept lists)
      (owed : ∀ k,∀ i ∈ lists k,(s.tasks i).info.stage = .sendRequest ∨ (s.tasks i).info.stage.reading = true →
        next.owes (lists next.list) i (s.tasks i).info.stage = l.owes [] i (s.tasks i).info.stage) :
      Tally ⟨s.leave l,silent⟩ := by
    rw [same]
    refine tallyEnter L swept fun k i mem => talliedMove (tallied k i mem) rfl fun going => ?_
    dsimp only
    rw [pc]
    exact (congrArg (· + silent i) (owed k i mem going)).trans (Nat.add_comm _ _)
  have stop {pc' : Pc} (same : s.leave l = { s with pc := pc' }) (stands : pc'.stands lists [])
      (owed : ∀ i stage,pc'.owes [] i stage = l.owes [] i stage) : Tally ⟨s.leave l,silent⟩ := by
    rw [same]
    refine ⟨lists,[],⟨L.rings,L.count,L.stages,L.away,L.live,L.gone,L.right⟩,stands,
      fun k i mem => talliedMove (tallied k i mem) rfl fun _ => ?_⟩
    dsimp only
    rw [pc,owed]
    exact Nat.add_comm _ _
  rcases Decidable.em (l = .connect) with rfl | late
  · refine onward rfl trivial fun k i mem going => ?_
    have place := heldList (L.stages k i mem)
    have inside (sends : (s.tasks i).info.stage = .sendRequest) : i ∈ lists .requesting := place.1 sends ▸ mem
    exact if_congr ⟨fun owed => owed.imp And.left id,fun owed => owed.imp (fun sends => ⟨sends,inside sends⟩) id⟩ rfl rfl
  rcases Decidable.em (l = .writeTimeout) with rfl | later
  · refine onward rfl trivial fun k i mem going => ?_
    have place := heldList (L.stages k i mem)
    have inside (reading : (s.tasks i).info.stage.reading = true) : i ∈ lists .downloading := place.2 reading ▸ mem
    refine if_congr ⟨fun owed => .inr owed.1,fun owed => ?_⟩ rfl rfl
    rcases owed with none_ | reading
    · exact absurd none_.2 List.not_mem_nil
    · exact ⟨reading,inside reading⟩
  cases leaveCases W with
  | enter next same swept => exact onward (same s) swept fun k i _ _ => leaveQuiet (same s) late later _ i _
  | top same =>
    refine stop (same s) trivial fun i stage => ?_
    have ends := congrArg Sched.pc (same s)
    cases l with
    | finish | write _ => rfl
    | destroy k => cases k <;> cases ends
    | connect | writeTimeout | readTimeout | read _ _ => cases ends
  | done same empty =>
    refine stop (same s) empty fun i stage => ?_
    have ends := congrArg Sched.pc (same s)
    cases l with
    | destroy k => rfl
    | connect | writeTimeout | readTimeout | read _ _ | finish | write _ => cases ends

theorem dueNone {e : Event} (none_ : w.timedOut e t = none) : w.due e t := fun _ moved =>
  absurd (none_.symm.trans moved) (Option.some_ne_none _).symm

theorem dueMoves {e : Event} (moves : w.timedOut e t = if (t.sched.tasks i).info.stage = .finish then some i else none) :
    w.due e t ↔ ((t.sched.tasks i).info.stage = .finish → w.silent i = httpDlTimeoutRetries) := by
  unfold Watch.due
  rw [moves]
  split
  · rename_i ends
    exact ⟨fun due _ => due i rfl,fun due j same => Option.some.inj same ▸ due ends⟩
  · rename_i stays
    exact iff_of_true (fun _ none_ => absurd none_.symm (Option.some_ne_none _)) fun ends => absurd ends stays

theorem dueExactly {rest : List TaskId} {pos : Node ListName TaskId} (stage : l.list.holds (s.tasks i).info.stage = true)
    (T : Tallied ⟨s,silent⟩ (i :: rest) i) (pc : s.pc = .loop l (.item i)) (io : Io) :
    (⟨s,silent⟩ : Watch).due (.body i io)
        ⟨{ s.body i io l with pc := .loop l pos },(⟨s,silent⟩ : Watch).silence (.body i io)⟩ ↔
      (⟨s,silent⟩ : Watch).sends (.body i io) := by
  have few := T.few
  dsimp only at few
  rw [pc] at few
  dsimp only [Pc.owes] at few
  cases l with
  | writeTimeout =>
    have sends : (s.tasks i).info.stage = .sendRequest := beq_iff_eq.mp stage
    obtain ⟨small,count⟩ := few (.inl sends)
    have once : Loop.owes (i :: rest) i .writeTimeout (s.tasks i).info.stage = 1 := by simp [Loop.owes,sends]
    have own := timeoutOwn s i .requesting "Write timeout 27 secs."
    rw [once,sends] at count
    dsimp only [Task.lead] at count
    refine (dueMoves (i := i) (by simp only [Watch.timedOut,pc])).trans ?_
    simp only [Watch.sends,pc]
    change (((s.timeout i .requesting "Write timeout 27 secs.").tasks i).info.stage = .finish → _) ↔ _
    rw [own]
    split
    · rename_i more
      exact iff_of_true (fun bad => by rw [sends] at bad; cases bad) more
    · rename_i last
      exact iff_of_false (fun due => absurd (due rfl) (by omega)) last
  | readTimeout =>
    have reading : (s.tasks i).info.stage.reading = true := stage
    obtain ⟨small,count⟩ := few (.inr reading)
    have once : Loop.owes (i :: rest) i .readTimeout (s.tasks i).info.stage = 1 := by simp [Loop.owes,reading]
    have own := timeoutOwn s i .downloading "Read timeout 27 secs."
    rw [once,leadReading reading] at count
    refine iff_of_true ((dueMoves (i := i) (by simp only [Watch.timedOut,pc])).mpr ?_) (by simp only [Watch.sends,pc])
    change ((s.timeout i .downloading "Read timeout 27 secs.").tasks i).info.stage = .finish → _
    rw [own]
    split
    · rename_i more
      intro bad
      rw [bad] at reading
      cases reading
    · rename_i last
      intro _
      dsimp only at last ⊢
      omega
  | connect | finish | read _ _ | write _ | destroy _ =>
    exact iff_of_true (dueNone (by simp only [Watch.timedOut,pc])) (by simp only [Watch.sends,pc])

theorem createFresh (s : Sched) (r : Request) : (httpDlCreateInfo s r).2 = true →
    ((httpDlHandleCtrlEvent s (some r)).tasks r.task).timeoutTimes = 0 ∧
      ((httpDlHandleCtrlEvent s (some r)).tasks r.task).info.stage = .init := by
  unfold httpDlHandleCtrlEvent
  dsimp only
  have cases_ := createCases s r
  generalize httpDlCreateInfo s r = made at cases_ ⊢
  intro done
  cases cases_ with
  | refused => cases done
  | wasted failed => cases done
  | @made target info file fd url opened =>
    have stage := initFilefdStage (newInfo target) (s.found r target) r.fd
    rw [opened] at stage
    have own : (s.opened r target info file).tasks r.task = ⟨info,target.localName,0,file.append,file.pos⟩ :=
      Function.update_self ..
    rw [if_pos rfl]
    unfold httpDlAddInfoToInitialList
    split
    · exact ⟨congrArg Task.timeoutTimes own,(congrArg (fun task => task.info.stage) own).trans stage⟩
    · exact ⟨congrArg Task.timeoutTimes own,(congrArg (fun task => task.info.stage) own).trans stage⟩

theorem tallyCtrl (L : Listed s lists none) (tallied : ∀ k,∀ i ∈ lists k,Tallied ⟨s,silent⟩ rest i)
    (flat : ∀ i stage,s.pc.owes rest i stage = 0) {readSet writeSet : List Int} {datagram : Option Request}
    (fresh : ∀ r ∈ datagram,s.created r.task = false) :
    Tally ⟨(httpDlHandleCtrlEvent s datagram).enter (.read readSet writeSet),silent⟩ := by
  have same {u : Sched} {j : TaskId} {k : ListName} (mem : j ∈ lists k) (task : u.tasks j = s.tasks j) (rest' : List TaskId) :
      Tallied ⟨u.enter (.read readSet writeSet),silent⟩ rest' j :=
    talliedMove (tallied k j mem) task fun _ => by
      dsimp only
      rw [flat,Nat.add_zero]
      exact Nat.zero_add _
  cases datagram with
  | none => exact tallyEnter L trivial fun k j mem => same mem rfl _
  | some r =>
    refine tallyEnter (ctrlListed L (fresh r rfl)) trivial fun k j mem => ?_
    have old {k : ListName} (was : j ∈ lists k) (rest' : List TaskId) :
        Tallied ⟨(httpDlHandleCtrlEvent s (some r)).enter (.read readSet writeSet),silent⟩ rest' j := by
      refine same was ((ctrlFrame s r).1 j ?_).1 rest'
      rintro rfl
      have live := (L.live r.task (.inl ⟨k,was⟩)).1
      rw [fresh r rfl] at live
      cases live
    split at mem
    · rename_i made
      rcases memAddItem.mp mem with was | ⟨rfl,_⟩
      · exact old was _
      · obtain ⟨zero,init⟩ := createFresh s r made
        refine ⟨fun _ => zero,fun going => ?_⟩
        have stage : ((⟨(httpDlHandleCtrlEvent s (some r)).enter (.read readSet writeSet),silent⟩ : Watch).sched.tasks
          r.task).info.stage = .init := init
        rw [stage] at going
        rcases going with bad | bad <;> cases bad
    · exact old mem _

theorem stepTally {e : Event} (inv : Tally w) (next : w.step e = some t) : Tally t ∧ (w.due e t ↔ w.sends e) := by
  obtain ⟨s,silent⟩ := w
  obtain ⟨lists,rest,L,stands,tallied⟩ := inv
  obtain ⟨u,stepped,rfl⟩ := Option.map_eq_some_iff.mp next
  dsimp only at stepped stands
  have flat {pc : Pc} (here : s.pc = pc) (plain : ∀ i stage,pc.owes rest i stage = 0) (i : TaskId) (stage : Stage) :
      s.pc.owes rest i stage = 0 := here ▸ plain i stage
  have quiet_ {e : Event} {t : Watch} (none_ : (⟨s,silent⟩ : Watch).timedOut e t = none) (sends : (⟨s,silent⟩ : Watch).sends e) :
      (⟨s,silent⟩ : Watch).due e t ↔ (⟨s,silent⟩ : Watch).sends e := iff_of_true (dueNone none_) sends
  have quit (top : s.pc = .top) : Tally ⟨s.quit,silent⟩ := by
    refine @tallyQuiet { s with fds := s.fds.erase s.ctrlSockfd } silent lists rest (.destroy .initial)
      ⟨L.rings,L.count,L.stages,L.away,L.live,L.gone,L.right⟩ trivial (fun k i mem => ?_)
      (flat top fun _ _ => rfl) fun _ _ => rfl
    exact talliedMove (tallied k i mem) rfl fun _ => Nat.add_comm _ _
  cases stepIff.mp stepped with
  | exit top => exact ⟨quit top,quiet_ rfl trivial⟩
  | timeout top =>
    refine ⟨tallyEnter L trivial fun k i mem => talliedMove (tallied k i mem) rfl fun going => ?_,quiet_ rfl trivial⟩
    have place := heldList (L.stages k i mem)
    have inside : i ∈ s.onList .downloading ++ s.onList .requesting := by
      rw [onListIs L,onListIs L]
      rcases going with sends | reading
      · exact List.mem_append_right _ (place.1 sends ▸ mem)
      · exact List.mem_append_left _ (place.2 reading ▸ mem)
    have seen : (s.tasks i).info.sockfd ∈ s.watched := List.mem_cons_of_mem _ (List.mem_map_of_mem inside)
    have owed : Loop.owes (lists .initial) i .connect (s.tasks i).info.stage = 1 := if_pos going
    change Loop.owes (lists .initial) i .connect (s.tasks i).info.stage + silent i =
      (if (s.tasks i).info.sockfd ∈ s.watched then silent i + 1 else silent i) + s.pc.owes rest i (s.tasks i).info.stage
    rw [owed,if_pos seen,top]
    exact Nat.add_comm _ _
  | eintr top => exact ⟨⟨lists,rest,L,stands,tallied⟩,quiet_ rfl trivial⟩
  | error top => exact ⟨quit top,quiet_ rfl trivial⟩
  | ready top =>
    refine ⟨⟨lists,rest,⟨L.rings,L.count,L.stages,L.away,L.live,L.gone,L.right⟩,trivial,fun k i mem => ?_⟩,quiet_ rfl trivial⟩
    exact talliedMove (tallied k i mem) rfl fun _ => by
      dsimp only
      rw [top]
      exact Nat.add_comm _ _
  | quiet pc unset => exact ⟨tallyQuiet L trivial tallied (flat pc fun _ _ => rfl) fun _ _ => rfl,quiet_ rfl trivial⟩
  | ctrl pc set fresh => exact ⟨tallyCtrl L tallied (flat pc fun _ _ => rfl) fresh,quiet_ rfl trivial⟩
  | @body l i io pc possible =>
    rw [pc] at stands
    obtain ⟨before,W⟩ := stands
    cases rest with
    | nil => cases W.pos
    | cons j rest =>
      cases W.pos
      have mem : i ∈ lists l.list := by
        rw [W.items]
        simp
      exact ⟨tallyBody L W pc tallied io,dueExactly (L.stages l.list i mem) (tallied l.list i mem) pc io⟩
  | leave pc =>
    rw [pc] at stands
    obtain ⟨before,W⟩ := stands
    exact ⟨tallyLeave L W pc tallied,quiet_ rfl trivial⟩

theorem startTally (files : Bytes → Option Bytes) (ctrlSockfd : Int) : Tally (Watch.start files ctrlSockfd) := by
  obtain ⟨lists,listed,_⟩ := startScheduled files ctrlSockfd
  cases ringsUnique listed.rings emptyRings
  exact ⟨_,[],listed,trivial,fun _ _ mem => absurd mem List.not_mem_nil⟩

end tally

/-- Along a run a task is timed out after the ninth silent time-out exactly when none is timed out before it has sent. -/
theorem timeoutsExactly (files : Bytes → Option Bytes) (ctrlSockfd : Int) (es : List Event) :
    Along Watch.step (fun w e t => w.due e t) (Watch.start files ctrlSockfd) es ↔
      Along Watch.step (fun w e _ => w.sends e) (Watch.start files ctrlSockfd) es :=
  alongIff (I := Tally) stepTally (startTally files ctrlSockfd)

instance (w : Watch) (e : Event) (t : Watch) : Decidable (w.due e t) := Option.decidableForallMem _

def silentRun : List Event :=
  [.select (.ready [3] []),.ctrl (some ⟨ascii "1.2.3.4/f",true,0,true,4⟩),.leave,.leave,
    .select .timeout,.body 0 { conn := .connected 5 },.leave,.body 0 {},.leave,.leave,.leave] ++
    (List.replicate 7 [.select .timeout,.leave,.body 0 {},.leave,.leave,.leave]).flatten ++ [.select .timeout,.leave,.body 0 {}]

theorem timedOutEarly : (run Watch.step (Watch.start (fun _ => none) 3) silentRun).map
      (fun w => (w.silent 0,(w.sched.tasks 0).info.errMsg)) = some (8,ascii "Write timeout 27 secs.") ∧
    ¬Along Watch.step (fun w e t => w.due e t) (Watch.start (fun _ => none) 3) silentRun := by
  decide +kernel

end MipsElfExec.Download

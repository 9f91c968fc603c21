import Mathlib.Data.List.Perm.Basic
import MipsElfExec.Download.Schedule

/-! The descriptors of the download module: those open are the control socket and what the listed tasks
hold, up to the end of a task that has a socket, which is shut down and not closed. -/
namespace MipsElfExec.Download
open CString MipsElfExec.Ring Run

def Task.fds (task : Task) : List Int := [task.info.sockfd,task.info.filefd].filter (0 ≤ ·)

def everyone (lists : ListName → List TaskId) : List TaskId :=
  lists .initial ++ lists .requesting ++ lists .downloading ++ lists .finished

def Pc.ctrlOpen : Pc → Bool
  | .loop (.destroy _) _ | .done => false
  | _ => true

def Sched.ctrlFds (s : Sched) : List Int := if s.pc.ctrlOpen then [s.ctrlSockfd] else []

def Sched.heldFds (s : Sched) (tasks : List TaskId) : List Int := tasks.flatMap fun i => (s.tasks i).fds

structure Conserved (s : Sched) (lists : ListName → List TaskId) : Prop where
  rings : Rings s.links lists
  held : s.fds.Perm (s.ctrlFds ++ s.heldFds (everyone lists))
  done : s.pc = .done → ∀ fd ∈ s.fds,fd = s.ctrlSockfd

section tasks
variable {s t : Sched} {lists : ListName → List TaskId} {i : TaskId} {k : ListName}

theorem everyoneAdd (lists : ListName → List TaskId) (k : ListName) (i : TaskId) :
    (everyone (addItem lists k i)).Perm (i :: everyone lists) := by
  rw [List.perm_iff_count]
  intro j
  cases k <;> simp [everyone,addItem,List.count_cons] <;> omega

theorem everyoneDrop (mem : i ∈ lists k) : (everyone lists).Perm (i :: everyone (dropItem lists k i)) := by
  rw [List.perm_iff_count]
  intro j
  have one := (List.perm_cons_erase mem).count_eq j
  cases k <;> simp [everyone,dropItem,List.count_cons] at one ⊢ <;> omega

theorem memEveryone {j : TaskId} : j ∈ everyone lists ↔ ∃ k,j ∈ lists k := by
  simp only [everyone,List.mem_append]
  constructor
  · rintro (((mem | mem) | mem) | mem)
    · exact ⟨_,mem⟩
    · exact ⟨_,mem⟩
    · exact ⟨_,mem⟩
    · exact ⟨_,mem⟩
  · rintro ⟨k,mem⟩
    cases k with
    | initial => exact .inl (.inl (.inl mem))
    | requesting => exact .inl (.inl (.inr mem))
    | downloading => exact .inl (.inr mem)
    | finished => exact .inr mem

theorem movedEveryone {after : ListName → List TaskId} (mem : i ∈ lists k) (moved : Moved lists k i after) :
    (everyone after).Perm (everyone lists) := by
  cases moved with
  | stay => exact .refl _
  | move other => exact (everyoneAdd _ _ i).trans (everyoneDrop mem).symm

structure Touches (s t : Sched) (i : TaskId) (l : Loop) : Prop where
  others : ∀ j,j ≠ i → t.tasks j = s.tasks j
  ctrl : t.ctrlSockfd = s.ctrlSockfd
  idle : (t.tasks i).info.stage = .init → (t.tasks i).info.sockfd < 0
  opens : l.ends = false → ∃ new,t.fds = s.fds ++ new ∧ (t.tasks i).fds.Perm ((s.tasks i).fds ++ new)
  closes : l.ends = true →
    t.fds = if (s.tasks i).info.filefd < 0 then s.fds else s.fds.erase (s.tasks i).info.filefd

theorem touchesPut (task : Task) {l : Loop} (going : l.ends = false) (others : ∀ j,j ≠ i → t.tasks j = s.tasks j)
    (here : t.tasks i = task) (ctrl : t.ctrlSockfd = s.ctrlSockfd) (fds : t.fds = s.fds)
    (sockfd : task.info.sockfd = (s.tasks i).info.sockfd) (filefd : task.info.filefd = (s.tasks i).info.filefd)
    (idle : task.info.stage = .init → task.info.sockfd < 0) : Touches s t i l := by
  refine ⟨others,ctrl,here ▸ idle,fun _ => ⟨[],by rw [fds,List.append_nil],?_⟩,fun ends => ?_⟩
  · rw [here,List.append_nil]
    simp only [Task.fds,sockfd,filefd]
    exact .refl _
  · rw [going] at ends
    cases ends

theorem finishTouches {u : Sched} {task : Task} {l : Loop} (going : l.ends = false) (tasks : u.tasks = s.tasks)
    (ctrl : u.ctrlSockfd = s.ctrlSockfd) (fds : u.fds = s.fds) (sockfd : task.info.sockfd = (s.tasks i).info.sockfd)
    (filefd : task.info.filefd = (s.tasks i).info.filefd) : Touches s (u.finish i task) i l :=
  touchesPut (task.setStage .finish) going (fun j other => (putOther u other _).trans (congrFun tasks j))
    (putSelf u i _) ctrl fds sockfd filefd Stage.noConfusion

theorem connectTouches (stage : (s.tasks i).info.stage = .init) (idle : (s.tasks i).info.sockfd < 0) {io : Io}
    (possible : s.possible i io .connect = true) : Touches s (s.connect i io) i .connect := by
  unfold Sched.connect httpDlDelInfoFromInitialList
  rw [if_neg (not_not_intro stage)]
  dsimp only
  split
  · rename_i fd conn
    have fresh : 0 ≤ fd := by
      simpa only [Sched.possible,conn,decide_eq_true_eq] using possible
    have here : (httpDlAddInfoToList { (httpDlDelInfoFromList s i .initial).put i
        (((s.tasks i).setSockfd fd).setStage .sendRequest) with fds := s.fds ++ [fd] } i .requesting).tasks i =
        ((s.tasks i).setSockfd fd).setStage .sendRequest := putSelf _ i _
    refine ⟨fun j other => putOther _ other _,rfl,fun init => ?_,fun _ => ⟨[fd],rfl,?_⟩,Bool.noConfusion⟩
    · have set := congrArg (fun task => task.info.stage) here
      exact Stage.noConfusion (set.symm.trans init)
    · refine (congrArg Task.fds here).symm ▸ ?_
      have none_ : ¬ 0 ≤ (s.tasks i).info.sockfd := by omega
      simp only [Task.fds,Task.setStage,Task.setSockfd,List.filter_cons,decide_eq_true fresh,decide_eq_false none_,if_true]
      exact (List.perm_append_singleton fd _).symm
  · exact finishTouches rfl rfl rfl rfl rfl rfl

theorem timeoutTouches {l : Loop} (going : l.ends = false) (idle : (s.tasks i).info.stage = .init → (s.tasks i).info.sockfd < 0)
    (k : ListName) (msg : String) : Touches s (s.timeout i k msg) i l := by
  unfold Sched.timeout
  dsimp only
  split
  · exact touchesPut _ going (fun j other => putOther s other _) (putSelf s i _) rfl rfl rfl rfl idle
  · exact finishTouches going rfl rfl rfl rfl rfl

theorem readTouches {l : Loop} (going : l.ends = false) (stage : (s.tasks i).info.stage.reading = true) (io : Io) :
    Touches s (httpDlHandleReadEvent s i io) i l := by
  have kept : Kept (s.tasks i).info (s.recv i io).1 (s.recv i io).2.2 := recvKept stage _ _ _
  unfold httpDlHandleReadEvent
  rw [if_pos stage]
  dsimp only
  have here : (s.received i io).tasks i = { s.tasks i with
    info := (s.recv i io).1,append := (s.recv i io).2.1.append,pos := (s.recv i io).2.1.pos } := putSelf s i _
  have others (j : TaskId) (other : j ≠ i) : (s.received i io).tasks j = s.tasks j := putOther s other _
  have received : Touches s (s.received i io) i l :=
    touchesPut _ going others here rfl rfl kept.sockfd kept.filefd fun init => by
      have reading := kept.reading
      rw [show (s.recv i io).1.stage = .init from init] at reading
      cases reading
  split
  · exact received
  · rename_i failed
    have sock : (((s.received i io).tasks i)).info.sockfd = (s.tasks i).info.sockfd := by rw [here]; exact kept.sockfd
    have file : (((s.received i io).tasks i)).info.filefd = (s.tasks i).info.filefd := by rw [here]; exact kept.filefd
    refine touchesPut (Task.setStage (if (s.recv i io).2.2 = .ok then (s.received i io).tasks i
      else ((s.received i io).tasks i).fail "Receive HTTP response failed.") .finish) going
      (fun j other => (putOther _ other _).trans (others j other)) (putSelf _ i _) rfl rfl ?_ ?_ Stage.noConfusion
    · split
      · exact sock
      · exact sock
    · split
      · exact file
      · exact file

theorem writeTouches {l : Loop} (going : l.ends = false) (stage : (s.tasks i).info.stage = .sendRequest) (io : Io) :
    Touches s (httpDlHandleWriteEvent s i io) i l := by
  unfold httpDlHandleWriteEvent
  rw [if_neg (not_not_intro stage)]
  dsimp only
  split
  · exact touchesPut ((s.tasks i).setStage .parseStatusLine) going (fun j other => putOther _ other _)
      (putSelf _ i _) rfl rfl rfl rfl Stage.noConfusion
  · exact finishTouches going rfl rfl rfl rfl rfl

theorem wakeInfo (s : Sched) (i : TaskId) : ((s.wake i).tasks i).info = (s.tasks i).info := by
  rw [Sched.wake,putSelf]

theorem wakeTouches {l : Loop} (touched : Touches (s.wake i) t i l) : Touches s t i l := by
  have here : (s.wake i).tasks i = { s.tasks i with timeoutTimes := 0 } := putSelf s i _
  refine ⟨fun j other => (touched.others j other).trans (putOther s other _),touched.ctrl,touched.idle,fun going => ?_,
    fun ends => ?_⟩
  · obtain ⟨new,fds,task⟩ := touched.opens going
    rw [here] at task
    exact ⟨new,fds,task⟩
  · have fds := touched.closes ends
    rw [here] at fds
    exact fds

theorem endTouches {u : Sched} {l : Loop} (ends : l.ends = true) (others : ∀ j,j ≠ i → u.tasks j = s.tasks j)
    (stage : (u.tasks i).info.stage = .finish) (ctrl : u.ctrlSockfd = s.ctrlSockfd) (fds : u.fds = s.fds)
    (filefd : (u.tasks i).info.filefd = (s.tasks i).info.filefd) : Touches s (httpDlFinishInfo u i) i l := by
  unfold httpDlFinishInfo
  rw [if_neg (not_not_intro stage)]
  refine ⟨others,ctrl,fun init => Stage.noConfusion (stage.symm.trans init),fun going => ?_,fun _ => ?_⟩
  · rw [ends] at going
    cases going
  · dsimp only
    rw [filefd,fds]

theorem bodyTouches (L : Listed s lists none) (idle : ∀ i,(s.tasks i).info.stage = .init → (s.tasks i).info.sockfd < 0)
    (l : Loop) (mem : i ∈ lists l.list) {io : Io} (possible : s.possible i io l = true) :
    Touches s (s.body i io l) i l := by
  have stage := L.stages l.list i mem
  cases l with
  | connect => exact connectTouches (beq_iff_eq.mp stage) (idle i (beq_iff_eq.mp stage)) possible
  | writeTimeout => exact timeoutTouches rfl (idle i) .requesting "Write timeout 27 secs."
  | readTimeout => exact timeoutTouches rfl (idle i) .downloading "Read timeout 27 secs."
  | finish => exact endTouches rfl (fun j _ => rfl) (beq_iff_eq.mp stage) rfl rfl rfl
  | read readSet writeSet =>
    simp only [Sched.body]
    split
    · exact wakeTouches (readTouches rfl (by rw [wakeInfo]; exact stage) io)
    · exact touchesPut _ rfl (fun j _ => rfl) rfl rfl rfl rfl rfl (idle i)
  | write writeSet =>
    simp only [Sched.body]
    split
    · exact wakeTouches (writeTouches rfl (by rw [wakeInfo]; exact beq_iff_eq.mp stage) io)
    · exact touchesPut _ rfl (fun j _ => rfl) rfl rfl rfl rfl rfl (idle i)
  | destroy k =>
    have ended : Touches s (httpDlFinishInfo { s.put i ((s.tasks i).setStage .finish) with links := listDelInit s.links i } i)
        i (.destroy k) :=
      endTouches rfl (fun j other => putOther s other _) (congrArg (fun task => task.info.stage) (putSelf s i _)) rfl rfl
        (congrArg (fun task => task.info.filefd) (putSelf s i _))
    exact ⟨ended.others,ended.ctrl,ended.idle,ended.opens,ended.closes⟩

end tasks

def Sched.strands (s : Sched) : Event → Prop
  | .body i _ => match s.pc with
    | .loop l _ => l.ends = true ∧ 0 ≤ (s.tasks i).info.sockfd
    | _ => False
  | _ => False

structure Owning (s : Sched) (lists : ListName → List TaskId) : Prop where
  listed : Listed s lists none
  on : s.pc.on lists
  held : s.fds.Perm (s.ctrlFds ++ s.heldFds (everyone lists))
  idle : ∀ i,(s.tasks i).info.stage = .init → (s.tasks i).info.sockfd < 0

section steps
variable {s t : Sched} {lists : ListName → List TaskId} {i : TaskId}

theorem heldCongr {tasks : List TaskId} (same : ∀ j ∈ tasks,t.tasks j = s.tasks j) : t.heldFds tasks = s.heldFds tasks :=
  List.flatMap_congr fun j mem => by rw [same j mem]

theorem heldCons (s : Sched) (i : TaskId) (tasks : List TaskId) :
    s.heldFds (i :: tasks) = (s.tasks i).fds ++ s.heldFds tasks := List.flatMap_cons

theorem owningConserved (O : Owning s lists) : Conserved s lists := by
  refine ⟨O.listed.rings,O.held,fun pc fd mem => ?_⟩
  have on := O.on
  rw [pc] at on
  have none_ : everyone lists = [] := by
    simp only [everyone,on .initial,on .requesting,on .downloading,on .finished,List.append_nil]
  have held := O.held
  rw [none_] at held
  simp only [Sched.ctrlFds,pc,Pc.ctrlOpen,Sched.heldFds] at held
  rw [held.mem_iff] at mem
  cases mem

theorem conservedHeld (C : Conserved s lists) {lists' : ListName → List TaskId} (rings : Rings s.links lists') :
    s.fds.Perm (s.ctrlFds ++ s.heldFds (everyone lists')) := by
  rw [ringsUnique rings C.rings]
  exact C.held

theorem bodyHeld (O : Owning s lists) {l : Loop} (mem : i ∈ lists l.list)
    {after : ListName → List TaskId} (touched : Touches s t i l) (next : t.pc.ctrlOpen = s.pc.ctrlOpen)
    (effect : l.ends = true ∧ after = dropItem lists l.list i ∨ l.ends = false ∧ Moved lists l.list i after) :
    t.fds.Perm (t.ctrlFds ++ t.heldFds (everyone after)) ↔ ¬(l.ends = true ∧ 0 ≤ (s.tasks i).info.sockfd) := by
  have ctrl : t.ctrlFds = s.ctrlFds := by rw [Sched.ctrlFds,Sched.ctrlFds,next,touched.ctrl]
  have split_ : s.fds.Perm (s.ctrlFds ++ ((s.tasks i).fds ++ s.heldFds (everyone (dropItem lists l.list i)))) := by
    rw [← heldCons]
    exact O.held.trans (List.Perm.append_left _ ((everyoneDrop mem).flatMap_right _))
  have rest : t.heldFds (everyone (dropItem lists l.list i)) = s.heldFds (everyone (dropItem lists l.list i)) := by
    refine heldCongr fun j on => touched.others j ?_
    rintro rfl
    obtain ⟨k,inside⟩ := memEveryone.mp on
    exact ((memDrop O.listed.rings mem).mp inside).2 rfl
  rcases effect with ⟨ends,rfl⟩ | ⟨going,moved⟩
  · rw [ctrl,rest,touched.closes ends]
    generalize s.heldFds (everyone (dropItem lists l.list i)) = others at split_
    rcases Int.lt_or_le (s.tasks i).info.sockfd 0 with none_ | socket
    · refine iff_of_true ?_ fun bad => absurd bad.2 (by omega)
      rcases Int.lt_or_le (s.tasks i).info.filefd 0 with closed | file
      · rw [if_pos closed]
        simpa [Task.fds,none_,closed] using split_
      · rw [if_neg (Int.not_lt.mpr file)]
        have held : s.fds.Perm ((s.tasks i).info.filefd :: (s.ctrlFds ++ others)) := by
          refine split_.trans ?_
          simp [Task.fds,none_,file]
        simpa using held.erase (s.tasks i).info.filefd
    · refine iff_of_false (fun perm => ?_) fun good => good ⟨ends,socket⟩
      have before := split_.length_eq
      have after := perm.length_eq
      rcases Int.lt_or_le (s.tasks i).info.filefd 0 with closed | file
      · rw [if_pos closed] at after
        simp [Task.fds,socket,closed] at before after
        omega
      · have open_ : (s.tasks i).info.filefd ∈ s.fds := by
          rw [split_.mem_iff]
          simp [Task.fds,file]
        rw [if_neg (Int.not_lt.mpr file),List.length_erase_of_mem open_] at after
        simp [Task.fds,socket,file] at before after
        omega
  · refine iff_of_true ?_ fun bad => ?_
    · obtain ⟨new,fds,here⟩ := touched.opens going
      have all := ((movedEveryone mem moved).trans (everyoneDrop mem)).flatMap_right fun j => (t.tasks j).fds
      have shown : (t.heldFds (everyone after)).Perm ((t.tasks i).fds ++ s.heldFds (everyone (dropItem lists l.list i))) := by
        rw [← rest,← heldCons]
        exact all
      rw [fds,ctrl,List.perm_iff_count]
      intro fd
      have one := split_.count_eq fd
      have two := shown.count_eq fd
      have three := here.count_eq fd
      simp only [List.count_append] at one two three ⊢
      omega
    · rw [going] at bad
      exact Bool.noConfusion bad.1

theorem leaveOpen (s : Sched) (l : Loop) : (s.leave l).pc.ctrlOpen = (Pc.loop l (.head l.list)).ctrlOpen := by
  cases l with
  | destroy k => cases k <;> rfl
  | _ => rfl

theorem owningSame (O : Owning s lists) (inv : Scheduled t) (links : t.links = s.links) (fds : t.fds = s.fds)
    (tasks : t.tasks = s.tasks) (ctrl : t.ctrlFds = s.ctrlFds) : Owning t lists := by
  obtain ⟨lists',listed,on⟩ := inv
  have same : lists' = lists := ringsUnique listed.rings (links ▸ O.listed.rings)
  subst same
  refine ⟨listed,on,?_,fun i => ?_⟩
  · rw [fds,ctrl,heldCongr fun j _ => congrFun tasks j]
    exact O.held
  · rw [tasks]
    exact O.idle i

theorem quitOwning (O : Owning s lists) (top : s.pc = .top) (inv : Scheduled s.quit) : Owning s.quit lists := by
  obtain ⟨lists',listed,on⟩ := inv
  have same : lists' = lists := ringsUnique listed.rings O.listed.rings
  subst same
  refine ⟨listed,on,?_,O.idle⟩
  have held := O.held
  rw [Sched.ctrlFds,top] at held
  have gone := held.erase s.ctrlSockfd
  have left : (s.fds.erase s.ctrlSockfd).Perm (s.heldFds (everyone lists')) := by simpa [Pc.ctrlOpen] using gone
  exact left

theorem ctrlKeeps (s : Sched) (r : Request) :
    (httpDlHandleCtrlEvent s (some r)).fds = (httpDlCreateInfo s r).1.fds ∧
    (httpDlHandleCtrlEvent s (some r)).tasks = (httpDlCreateInfo s r).1.tasks ∧
    (httpDlHandleCtrlEvent s (some r)).ctrlSockfd = (httpDlCreateInfo s r).1.ctrlSockfd := by
  unfold httpDlHandleCtrlEvent
  dsimp only
  split
  · unfold httpDlAddInfoToInitialList
    split <;> exact ⟨rfl,rfl,rfl⟩
  · exact ⟨rfl,rfl,rfl⟩

theorem ctrlOwning (O : Owning s lists) {r : Request} (fresh : s.created r.task = false)
    (fds : t.fds = (httpDlCreateInfo s r).1.fds) (tasks : t.tasks = (httpDlCreateInfo s r).1.tasks) :
    t.fds.Perm (s.ctrlFds ++
      t.heldFds (everyone (if (httpDlCreateInfo s r).2 then addItem lists .initial r.task else lists))) ∧
    ((httpDlCreateInfo s r).1.ctrlSockfd = s.ctrlSockfd) ∧
    ∀ i,(t.tasks i).info.stage = .init → (t.tasks i).info.sockfd < 0 := by
  have cases_ := createCases s r
  generalize httpDlCreateInfo s r = made at cases_ fds tasks ⊢
  cases cases_ with
  | refused =>
    refine ⟨?_,rfl,by rw [tasks]; exact O.idle⟩
    rw [fds,if_neg Bool.noConfusion,heldCongr fun j _ => congrFun tasks j]
    exact O.held
  | wasted failed =>
    refine ⟨?_,rfl,by rw [tasks]; exact O.idle⟩
    rw [fds,if_neg Bool.noConfusion,heldCongr fun j _ => congrFun tasks j]
    exact O.held
  | @made target info file fd url opened =>
    have own : info.sockfd = -1 ∧ info.filefd = r.fd := by
      unfold httpDlInitFilefd at opened
      dsimp only at opened
      rw [if_neg (Int.not_lt.mpr fd)] at opened
      cases opened
      exact ⟨rfl,rfl⟩
    have here : t.tasks r.task = ⟨info,target.localName,0,file.append,file.pos⟩ := by
      rw [tasks]
      exact Function.update_self r.task _ s.tasks
    have others (j : TaskId) (other : j ≠ r.task) : t.tasks j = s.tasks j := by
      rw [tasks]
      exact Function.update_of_ne other _ s.tasks
    have apart (j : TaskId) (mem : j ∈ everyone lists) : t.tasks j = s.tasks j := by
      refine others j ?_
      rintro rfl
      have live := (O.listed.live r.task (.inl (memEveryone.mp mem))).1
      rw [fresh] at live
      cases live
    refine ⟨?_,rfl,fun i init => ?_⟩
    · have all := (everyoneAdd lists .initial r.task).flatMap_right fun j => (t.tasks j).fds
      have shown : (t.heldFds (everyone (addItem lists .initial r.task))).Perm ([r.fd] ++ s.heldFds (everyone lists)) := by
        have hand : (t.tasks r.task).fds = [r.fd] := by
          rw [here]
          simp [Task.fds,own.1,own.2,fd]
        rw [← heldCongr apart,← hand,← heldCons]
        exact all
      rw [fds,if_pos rfl,List.perm_iff_count]
      intro d
      have one := O.held.count_eq d
      have two := shown.count_eq d
      simp only [Sched.opened,List.count_append] at one two ⊢
      omega
    · rcases Decidable.em (i = r.task) with rfl | other
      · rw [here]
        exact own.1 ▸ by decide
      · rw [others i other] at init ⊢
        exact O.idle i init

theorem stepExact {e : Event} (inv : ∃ lists,Owning s lists) (next : s.step e = some t) :
    ((∃ lists,Conserved t lists) ↔ ¬s.strands e) ∧ ((∃ lists,Conserved t lists) → ∃ lists,Owning t lists) := by
  obtain ⟨lists,O⟩ := inv
  have scheduled := stepScheduled ⟨lists,O.listed,O.on⟩ next
  have fine (quiet : ¬s.strands e) (owning : ∃ lists,Owning t lists) :
      ((∃ lists,Conserved t lists) ↔ ¬s.strands e) ∧ ((∃ lists,Conserved t lists) → ∃ lists,Owning t lists) :=
    ⟨iff_of_true (owning.imp fun _ O => owningConserved O) quiet,fun _ => owning⟩
  cases stepIff.mp next with
  | exit top => exact fine id ⟨lists,quitOwning O top scheduled⟩
  | timeout top =>
    exact fine id ⟨lists,owningSame O scheduled rfl rfl rfl (by simp [Sched.ctrlFds,Sched.enter,top,Pc.ctrlOpen])⟩
  | eintr top => exact fine id ⟨lists,O⟩
  | error top => exact fine id ⟨lists,quitOwning O top scheduled⟩
  | ready top => exact fine id ⟨lists,owningSame O scheduled rfl rfl rfl (by simp [Sched.ctrlFds,top,Pc.ctrlOpen])⟩
  | quiet pc unset =>
    exact fine id ⟨lists,owningSame O scheduled rfl rfl rfl (by simp [Sched.ctrlFds,Sched.enter,pc,Pc.ctrlOpen])⟩
  | @ctrl readSet writeSet datagram pc set fresh =>
    refine fine id ?_
    have same (u : Sched) (ctrl : u.ctrlSockfd = s.ctrlSockfd) : (u.enter (.read readSet writeSet)).ctrlFds = s.ctrlFds := by
      simp [Sched.ctrlFds,Sched.enter,pc,Pc.ctrlOpen,ctrl]
    cases datagram with
    | none => exact ⟨lists,owningSame O scheduled rfl rfl rfl (same s rfl)⟩
    | some r =>
      obtain ⟨fds,tasks,ctrl⟩ := ctrlKeeps s r
      obtain ⟨held,kept,idle⟩ := ctrlOwning O (fresh r rfl) fds tasks
      have listed := ctrlListed O.listed (fresh r rfl)
      obtain ⟨after,listed',on⟩ := scheduled
      cases ringsUnique listed'.rings listed.rings
      refine ⟨_,listed',on,?_,idle⟩
      rw [same _ (ctrl.trans kept)]
      exact held
  | @body l i io pc possible =>
    have mem := walkingMem O.on pc
    obtain ⟨after,listed,effect⟩ := bodyListed O.listed l mem io
    have touched := bodyTouches O.listed O.idle l mem possible
    have held := bodyHeld (t := { s.body i io l with pc := .loop l (s.links.next (.item i)) }) O mem
      ⟨touched.others,touched.ctrl,touched.idle,touched.opens,touched.closes⟩ (by rw [pc]; cases l <;> rfl) effect
    obtain ⟨after',listed',on⟩ := scheduled
    cases ringsUnique listed'.rings listed.rings
    have idle (j : TaskId) (init : ((s.body i io l).tasks j).info.stage = .init) :
        ((s.body i io l).tasks j).info.sockfd < 0 := by
      rcases Decidable.em (j = i) with rfl | other
      · exact touched.idle init
      · rw [touched.others j other] at init ⊢
        exact O.idle j init
    have strands : s.strands (.body i io) ↔ l.ends = true ∧ 0 ≤ (s.tasks i).info.sockfd := by
      simp only [Sched.strands,pc]
    have conserved : (∃ lists,Conserved { s.body i io l with pc := .loop l (s.links.next (.item i)) } lists) ↔
        ¬(l.ends = true ∧ 0 ≤ (s.tasks i).info.sockfd) := by
      rw [← held]
      exact ⟨fun ⟨_,C⟩ => conservedHeld C listed'.rings,fun perm => ⟨_,listed'.rings,perm,Pc.noConfusion⟩⟩
    rw [strands]
    exact ⟨conserved,fun good => ⟨_,listed',on,held.mpr (conserved.mp good),idle⟩⟩
  | @leave l pc =>
    have left := leaveFrame s l
    refine fine id ⟨lists,owningSame O scheduled left.links left.fds left.tasks ?_⟩
    rw [Sched.ctrlFds,Sched.ctrlFds,left.ctrlSockfd,leaveOpen,pc]

theorem startOwning (files : Bytes → Option Bytes) (ctrlSockfd : Int) : ∃ lists,Owning (Sched.start files ctrlSockfd) lists := by
  obtain ⟨lists,listed,on⟩ := startScheduled files ctrlSockfd
  cases ringsUnique listed.rings emptyRings
  exact ⟨_,listed,on,.refl _,fun _ _ => (by decide : (-1 : Int) < 0)⟩

end steps

/-- Along a run the open descriptors are the control socket and what the listed tasks hold exactly as long as no task
that has a socket ends. -/
theorem descriptorsConservedExactly (files : Bytes → Option Bytes) (ctrlSockfd : Int) (es : List Event) :
    Along Sched.step (fun _ _ t => ∃ lists,Conserved t lists) (Sched.start files ctrlSockfd) es ↔
      Along Sched.step (fun s e _ => ¬s.strands e) (Sched.start files ctrlSockfd) es :=
  alongExact (I := fun s => ∃ lists,Owning s lists) stepExact (startOwning files ctrlSockfd)

def strandedRun : List Event :=
  [.select (.ready [3] []),.ctrl (some ⟨ascii "1.2.3.4/f",true,0,true,4⟩),.leave,.leave,.select .timeout,
    .body 0 { conn := .connected 5 },.leave,.body 0 {},.leave,.leave,.leave,.exit,.leave,.body 0 {},.leave,.leave,.leave]

theorem socketStranded : ∃ t,run Sched.step (Sched.start (fun _ => none) 3) strandedRun = some t ∧ t.pc = .done ∧
    t.fds = [5] ∧ ¬∃ lists,Conserved t lists := by
  have ran : (run Sched.step (Sched.start (fun _ => none) 3) strandedRun).map (fun t => (t.pc,t.fds,t.ctrlSockfd)) =
      some (.done,[5],3) := by
    decide
  obtain ⟨t,path,same⟩ := Option.map_eq_some_iff.mp ran
  simp only [Prod.mk.injEq] at same
  obtain ⟨pc,fds,ctrl⟩ := same
  refine ⟨t,path,pc,fds,fun ⟨_,C⟩ => ?_⟩
  have only := C.done pc 5 (by rw [fds]; exact List.mem_singleton_self 5)
  rw [ctrl] at only
  exact absurd only (by decide)

end MipsElfExec.Download

import MipsElfExec.Download.Schedule

/-! Two tasks meet in the file system only: a run from which one task is left out gives every file of
another name the same content. -/
namespace MipsElfExec.Download
open CString MipsElfExec.Ring Run

@[simp] theorem delTasks (s : Sched) (i : TaskId) (k : ListName) : (httpDlDelInfoFromList s i k).tasks = s.tasks := rfl
@[simp] theorem addTasks (s : Sched) (i : TaskId) (k : ListName) : (httpDlAddInfoToList s i k).tasks = s.tasks := rfl

section frame
variable {s t u : Sched} {i : TaskId} {n : Bytes}

structure Frame (i : TaskId) (n : Bytes) (s t : Sched) : Prop where
  others : ∀ j,j ≠ i → t.tasks j = s.tasks j
  name : (t.tasks i).localName = (s.tasks i).localName
  files : ∀ m,m ≠ n → t.files m = s.files m
  created : t.created = s.created
  ctrl : t.ctrlSockfd = s.ctrlSockfd

theorem frameTrans (one : Frame i n s t) (two : Frame i n t u) : Frame i n s u :=
  ⟨fun j other => (two.others j other).trans (one.others j other),two.name.trans one.name,
    fun m other => (two.files m other).trans (one.files m other),two.created.trans one.created,two.ctrl.trans one.ctrl⟩

theorem frameSame (tasks : t.tasks = s.tasks) (files : t.files = s.files) (created : t.created = s.created)
    (ctrl : t.ctrlSockfd = s.ctrlSockfd) : Frame i n s t :=
  ⟨fun j _ => congrFun tasks j,by rw [tasks],fun m _ => congrFun files m,created,ctrl⟩

theorem framePut (s : Sched) (task : Task) (name : task.localName = (s.tasks i).localName) : Frame i n s (s.put i task) :=
  ⟨fun j other => putOther s other task,by rw [putSelf]; exact name,fun _ _ => rfl,rfl,rfl⟩

theorem frameFinish (s : Sched) {task : Task} (name : task.localName = (s.tasks i).localName) :
    Frame i n s (s.finish i task) :=
  frameTrans (framePut s (task.setStage .finish) name) (frameSame rfl rfl rfl rfl)

theorem frameReceived (s : Sched) (i : TaskId) (io : Io) : Frame i (s.tasks i).localName s (s.received i io) := by
  have put : Frame i (s.tasks i).localName s (s.put i { s.tasks i with
    info := (s.recv i io).1,append := (s.recv i io).2.1.append,pos := (s.recv i io).2.1.pos }) := framePut s _ rfl
  exact ⟨put.others,put.name,fun m other => Function.update_of_ne other _ _,rfl,rfl⟩

theorem frameFinishInfo (s : Sched) (i : TaskId) : Frame i n s (httpDlFinishInfo s i) := by
  unfold httpDlFinishInfo
  split
  · exact frameSame rfl rfl rfl rfl
  · exact frameSame rfl rfl rfl rfl

theorem frameConnect (s : Sched) (i : TaskId) (io : Io) : Frame i n s (s.connect i io) := by
  have deleted : Frame i n s (httpDlDelInfoFromInitialList s i) := by
    unfold httpDlDelInfoFromInitialList
    split
    · exact frameSame rfl rfl rfl rfl
    · exact frameSame rfl rfl rfl rfl
  unfold Sched.connect
  dsimp only
  split
  · rename_i fd _
    have put := framePut (httpDlDelInfoFromInitialList s i) (n := n)
      ((((httpDlDelInfoFromInitialList s i).tasks i).setSockfd fd).setStage .sendRequest) rfl
    exact frameTrans deleted (frameTrans put (frameSame rfl rfl rfl rfl))
  · exact frameTrans deleted (frameFinish _ rfl)

theorem frameTimeout (s : Sched) (i : TaskId) (k : ListName) (msg : String) : Frame i n s (s.timeout i k msg) := by
  unfold Sched.timeout
  dsimp only
  split
  · exact framePut s _ rfl
  · exact frameTrans (t := httpDlDelInfoFromList s i k) (frameSame rfl rfl rfl rfl) (frameFinish _ rfl)

theorem frameRead (s : Sched) (i : TaskId) (io : Io) :
    Frame i (s.tasks i).localName s (httpDlHandleReadEvent s i io) := by
  unfold httpDlHandleReadEvent
  dsimp only
  split
  · split
    · exact frameReceived s i io
    · refine frameTrans (frameReceived s i io) (frameTrans (t := httpDlDelInfoFromList (s.received i io) i .downloading)
        (frameSame rfl rfl rfl rfl) (frameFinish _ ?_))
      split <;> rfl
  · exact frameSame rfl rfl rfl rfl

theorem frameWrite (s : Sched) (i : TaskId) (io : Io) : Frame i n s (httpDlHandleWriteEvent s i io) := by
  unfold httpDlHandleWriteEvent
  dsimp only
  split
  · exact frameSame rfl rfl rfl rfl
  · have deleted : Frame i n s (httpDlDelInfoFromList s i .requesting) := frameSame rfl rfl rfl rfl
    split
    · exact frameTrans deleted (frameTrans (framePut _ ((s.tasks i).setStage .parseStatusLine) rfl)
        (frameSame rfl rfl rfl rfl))
    · exact frameTrans deleted (frameFinish _ rfl)

theorem frameBody (s : Sched) (i : TaskId) (io : Io) (l : Loop) : Frame i (s.tasks i).localName s (s.body i io l) := by
  have wake : Frame i (s.tasks i).localName s (s.wake i) := framePut s _ rfl
  cases l with
  | connect => exact frameConnect s i io
  | writeTimeout => exact frameTimeout s i .requesting "Write timeout 27 secs."
  | readTimeout => exact frameTimeout s i .downloading "Read timeout 27 secs."
  | finish => exact frameTrans (t := httpDlDelInfoFromList s i .finished) (frameSame rfl rfl rfl rfl) (frameFinishInfo _ i)
  | read readSet writeSet =>
    simp only [Sched.body]
    split
    · have read := frameRead (s.wake i) i io
      rw [wake.name] at read
      exact frameTrans wake read
    · exact frameSame rfl rfl rfl rfl
  | write writeSet =>
    simp only [Sched.body]
    split
    · exact frameTrans wake (frameWrite (s.wake i) i io)
    · exact frameSame rfl rfl rfl rfl
  | destroy k =>
    have put : Frame i (s.tasks i).localName s
        { s.put i ((s.tasks i).setStage .finish) with links := listDelInit s.links i } :=
      frameTrans (framePut s ((s.tasks i).setStage .finish) rfl) (frameSame rfl rfl rfl rfl)
    exact frameTrans put (frameTrans (frameFinishInfo _ i) (frameSame rfl rfl rfl rfl))

theorem ctrlFrame (s : Sched) (r : Request) :
    (∀ j,j ≠ r.task → (httpDlHandleCtrlEvent s (some r)).tasks j = s.tasks j ∧
      (httpDlHandleCtrlEvent s (some r)).created j = s.created j) ∧
    (∀ m,(httpDlHandleCtrlEvent s (some r)).files m = s.files m ∨
      (httpDlHandleCtrlEvent s (some r)).created r.task = true ∧
        m = ((httpDlHandleCtrlEvent s (some r)).tasks r.task).localName) ∧
    (httpDlHandleCtrlEvent s (some r)).ctrlSockfd = s.ctrlSockfd := by
  have kept (u : Sched) : (httpDlAddInfoToInitialList u r.task).tasks = u.tasks ∧
      (httpDlAddInfoToInitialList u r.task).created = u.created ∧
      (httpDlAddInfoToInitialList u r.task).files = u.files ∧
      (httpDlAddInfoToInitialList u r.task).ctrlSockfd = u.ctrlSockfd := by
    unfold httpDlAddInfoToInitialList
    split <;> exact ⟨rfl,rfl,rfl,rfl⟩
  unfold httpDlHandleCtrlEvent
  dsimp only
  have cases_ := createCases s r
  generalize httpDlCreateInfo s r = made at cases_ ⊢
  cases cases_ with
  | refused => exact ⟨fun _ _ => ⟨rfl,rfl⟩,fun _ => .inl rfl,rfl⟩
  | wasted failed => exact ⟨fun j other => ⟨rfl,Function.update_of_ne other _ _⟩,fun _ => .inl rfl,rfl⟩
  | @made target info file fd url opened =>
    obtain ⟨tasks,created,files,ctrl⟩ := kept (s.opened r target info file)
    rw [if_pos rfl,tasks,created,files,ctrl]
    refine ⟨fun j other => ⟨Function.update_of_ne other _ _,Function.update_of_ne other _ _⟩,fun m => ?_,rfl⟩
    rcases Decidable.em (m = target.localName) with rfl | other
    · exact .inr ⟨Function.update_self .. ,by simp [Sched.opened]⟩
    · exact .inl (Function.update_of_ne other _ _)

theorem stepNames {e : Event} (next : s.step e = some t) {j : TaskId} (created : s.created j = true) :
    t.created j = true ∧ (t.tasks j).localName = (s.tasks j).localName := by
  cases stepIff.mp next with
  | exit top => exact ⟨created,rfl⟩
  | timeout top => exact ⟨created,rfl⟩
  | eintr top => exact ⟨created,rfl⟩
  | error top => exact ⟨created,rfl⟩
  | ready top => exact ⟨created,rfl⟩
  | quiet pc unset => exact ⟨created,rfl⟩
  | @ctrl _ _ datagram pc set fresh =>
    cases datagram with
    | none => exact ⟨created,rfl⟩
    | some r =>
      have other : j ≠ r.task := by
        rintro rfl
        rw [fresh r rfl] at created
        cases created
      obtain ⟨task,still⟩ := (ctrlFrame s r).1 j other
      exact ⟨still.trans created,congrArg Task.localName task⟩
  | @body l i io pc possible =>
    have frame := frameBody s i io l
    refine ⟨(congrFun frame.created j).trans created,?_⟩
    rcases Decidable.em (j = i) with rfl | other
    · exact frame.name
    · exact congrArg Task.localName (frame.others j other)
  | @leave l pc =>
    rw [(leaveFrame s l).tasks,(leaveFrame s l).created]
    exact ⟨created,rfl⟩

theorem runNames {es : List Event} (path : run Sched.step s es = some t) {j : TaskId} (created : s.created j = true) :
    t.created j = true ∧ (t.tasks j).localName = (s.tasks j).localName := by
  induction es generalizing s with
  | nil =>
    cases path
    exact ⟨created,rfl⟩
  | cons e es ih =>
    obtain ⟨u,next,rest⟩ := Option.bind_eq_some_iff.mp path
    obtain ⟨still,name⟩ := stepNames next created
    obtain ⟨last,same⟩ := ih rest still
    exact ⟨last,same.trans name⟩

theorem stepCreates {e : Event} (next : s.step e = some t) {j : TaskId} (created : t.created j = true) :
    s.created j = true ∨ ∃ r,e = .ctrl (some r) ∧ r.task = j := by
  cases stepIff.mp next with
  | exit top => exact .inl created
  | timeout top => exact .inl created
  | eintr top => exact .inl created
  | error top => exact .inl created
  | ready top => exact .inl created
  | quiet pc unset => exact .inl created
  | @ctrl _ _ datagram pc set fresh =>
    cases datagram with
    | none => exact .inl created
    | some r =>
      rcases Decidable.em (j = r.task) with same | other
      · exact .inr ⟨r,rfl,same.symm⟩
      · exact .inl (((ctrlFrame s r).1 j other).2 ▸ created)
  | @body l i io pc possible => exact .inl (congrFun (frameBody s i io l).created j ▸ created)
  | @leave l pc => exact .inl (congrFun (leaveFrame s l).created j ▸ created)

theorem runCreates {es : List Event} (path : run Sched.step s es = some t) {j : TaskId} (created : t.created j = true) :
    s.created j = true ∨ ∃ r,.ctrl (some r) ∈ es ∧ r.task = j := by
  induction es generalizing s with
  | nil =>
    cases path
    exact .inl created
  | cons e es ih =>
    obtain ⟨u,next,rest⟩ := Option.bind_eq_some_iff.mp path
    rcases ih rest with early | ⟨r,mem,same⟩
    · rcases stepCreates next early with old | ⟨r,rfl,same⟩
      · exact .inl old
      · exact .inr ⟨r,List.mem_cons_self ..,same⟩
    · exact .inr ⟨r,List.mem_cons_of_mem _ mem,same⟩

end frame

def dropTask (b : TaskId) (lists : ListName → List TaskId) (k : ListName) : List TaskId := (lists k).filter (· ≠ b)

structure Apart (b : TaskId) (n : Bytes) (s s' : Sched) (lists : ListName → List TaskId) : Prop where
  rings : Rings s.links lists
  rings' : Rings s'.links (dropTask b lists)
  tasks : ∀ i,i ≠ b → s'.tasks i = s.tasks i
  created : ∀ i,i ≠ b → s'.created i = s.created i
  files : ∀ m,m ≠ n → s'.files m = s.files m
  ctrl : s'.ctrlSockfd = s.ctrlSockfd

section apart
variable {b i : TaskId} {n : Bytes} {s s' : Sched} {lists : ListName → List TaskId} {k : ListName}

theorem dropTaskAdd (other : i ≠ b) : dropTask b (addItem lists k i) = addItem (dropTask b lists) k i := by
  funext m
  rcases Decidable.em (m = k) with rfl | off
  · simp [dropTask,addItem,other]
  · simp [dropTask,addItem,off]

theorem dropTaskOwn : dropTask b (addItem lists k b) = dropTask b lists := by
  funext m
  rcases Decidable.em (m = k) with rfl | off
  · simp [dropTask,addItem]
  · simp [dropTask,addItem,off]

theorem dropTaskDrop (R : Rings s.links lists) :
    dropTask b (dropItem lists k i) = if i = b then dropTask b lists else dropItem (dropTask b lists) k i := by
  have erased : (lists k).erase i = (lists k).filter (· != i) := (R.nodup k).erase_eq_filter i
  funext m
  rcases Decidable.em (m = k) with rfl | off
  · split
    · rename_i same
      subst same
      simp only [dropTask,dropItem,Function.update_self,erased,List.filter_filter]
      refine List.filter_congr fun a _ => ?_
      rcases Decidable.em (a = i) with here | away
      · simp [here]
      · simp [away]
    · have kept : ((lists m).filter (· ≠ b)).erase i = ((lists m).filter (· ≠ b)).filter (· != i) :=
        ((R.nodup m).filter _).erase_eq_filter i
      simp only [dropTask,dropItem,Function.update_self,erased,kept,List.filter_filter,Bool.and_comm]
  · split <;> simp [dropTask,dropItem,off]

theorem putApart (A : Apart b n s s' lists) (i : TaskId) (task : Task) : Apart b n (s.put i task) (s'.put i task) lists := by
  refine ⟨A.rings,A.rings',fun j other => ?_,A.created,A.files,A.ctrl⟩
  rcases Decidable.em (j = i) with rfl | apart
  · rw [putSelf,putSelf]
  · rw [putOther s apart,putOther s' apart]
    exact A.tasks j other

theorem fdsApart (A : Apart b n s s' lists) (fds fds' : List Int) :
    Apart b n { s with fds := fds } { s' with fds := fds' } lists :=
  ⟨A.rings,A.rings',A.tasks,A.created,A.files,A.ctrl⟩

theorem linksApart (A : Apart b n s s' lists) (other : i ≠ b) (mem : i ∈ lists k) :
    Apart b n { s with links := listDelInit s.links i } { s' with links := listDelInit s'.links i } (dropItem lists k i) := by
  refine ⟨ringsDrop A.rings mem,?_,A.tasks,A.created,A.files,A.ctrl⟩
  rw [dropTaskDrop A.rings,if_neg other]
  exact ringsDrop A.rings' (List.mem_filter.mpr ⟨mem,decide_eq_true other⟩)

theorem delApart (A : Apart b n s s' lists) (other : i ≠ b) (mem : i ∈ lists k) :
    Apart b n (httpDlDelInfoFromList s i k) (httpDlDelInfoFromList s' i k) (dropItem lists k i) := by
  have dropped := linksApart A other mem
  exact ⟨dropped.rings,dropped.rings',A.tasks,A.created,A.files,A.ctrl⟩

theorem addApart (A : Apart b n s s' lists) (other : i ≠ b) (off : ∀ m,i ∉ lists m) (k : ListName) :
    Apart b n (httpDlAddInfoToList s i k) (httpDlAddInfoToList s' i k) (addItem lists k i) := by
  refine ⟨ringsAddTail A.rings off k,?_,A.tasks,A.created,A.files,A.ctrl⟩
  rw [dropTaskAdd other]
  exact ringsAddTail A.rings' (fun m mem => off m (List.mem_of_mem_filter mem)) k

theorem finishApart (A : Apart b n s s' lists) (other : i ≠ b) (off : ∀ m,i ∉ lists m) (task : Task) :
    Apart b n (s.finish i task) (s'.finish i task) (addItem lists .finished i) :=
  addApart (putApart A i _) other off .finished

theorem offDrop (R : Rings s.links lists) (mem : i ∈ lists k) (m : ListName) : i ∉ dropItem lists k i m :=
  fun inside => ((memDrop R mem).mp inside).2 rfl

theorem finishInfoApart (A : Apart b n s s' lists) (other : i ≠ b) (stage : (s.tasks i).info.stage = .finish) :
    Apart b n (httpDlFinishInfo s i) (httpDlFinishInfo s' i) lists := by
  unfold httpDlFinishInfo
  rw [A.tasks i other,if_neg (not_not_intro stage),if_neg (not_not_intro stage)]
  exact ⟨A.rings,A.rings',A.tasks,A.created,A.files,A.ctrl⟩

theorem connectApart (A : Apart b n s s' lists) (other : i ≠ b) (mem : i ∈ lists .initial)
    (stage : (s.tasks i).info.stage = .init) (io : Io) :
    ∃ after,Apart b n (s.connect i io) (s'.connect i io) after := by
  have deleted := delApart A other mem
  have off := offDrop A.rings mem
  unfold Sched.connect httpDlDelInfoFromInitialList
  rw [A.tasks i other,if_neg (not_not_intro stage),if_neg (not_not_intro stage)]
  simp only [delTasks,A.tasks i other]
  split
  · exact ⟨_,addApart (fdsApart (putApart deleted i _) _ _) other off .requesting⟩
  · exact ⟨_,finishApart deleted other off _⟩

theorem timeoutApart (A : Apart b n s s' lists) (other : i ≠ b) (mem : i ∈ lists k) (msg : String) :
    ∃ after,Apart b n (s.timeout i k msg) (s'.timeout i k msg) after := by
  unfold Sched.timeout
  simp only [A.tasks i other]
  split
  · exact ⟨lists,putApart A i _⟩
  · exact ⟨_,finishApart (delApart A other mem) other (offDrop A.rings mem) _⟩

theorem readApart (A : Apart b n s s' lists) (other : i ≠ b) (mem : i ∈ lists .downloading)
    (stage : (s.tasks i).info.stage.reading = true) (name : (s.tasks i).localName ≠ n) (io : Io) :
    ∃ after,Apart b n (httpDlHandleReadEvent s i io) (httpDlHandleReadEvent s' i io) after := by
  have recv : s'.recv i io = s.recv i io := by
    unfold Sched.recv
    rw [A.tasks i other]
    simp only [A.files _ name]
  have received : Apart b n (s.received i io) (s'.received i io) lists := by
    unfold Sched.received
    simp only [recv,A.tasks i other]
    have put := putApart A i { s.tasks i with
      info := (s.recv i io).1,append := (s.recv i io).2.1.append,pos := (s.recv i io).2.1.pos }
    refine ⟨put.rings,put.rings',put.tasks,put.created,fun m away => ?_,put.ctrl⟩
    rcases Decidable.em (m = (s.tasks i).localName) with rfl | off
    · simp
    · simp [off,A.files m away]
  unfold httpDlHandleReadEvent
  rw [A.tasks i other,if_pos stage,if_pos stage]
  simp only [recv]
  split
  · exact ⟨lists,received⟩
  · rw [received.tasks i other]
    exact ⟨_,finishApart (delApart received other mem) other (offDrop received.rings mem) _⟩

theorem writeApart (A : Apart b n s s' lists) (other : i ≠ b) (mem : i ∈ lists .requesting)
    (stage : (s.tasks i).info.stage = .sendRequest) (io : Io) :
    ∃ after,Apart b n (httpDlHandleWriteEvent s i io) (httpDlHandleWriteEvent s' i io) after := by
  have deleted := delApart A other mem
  have off := offDrop A.rings mem
  unfold httpDlHandleWriteEvent
  rw [A.tasks i other,if_neg (not_not_intro stage),if_neg (not_not_intro stage)]
  simp only [delTasks,A.tasks i other]
  split
  · exact ⟨_,addApart (putApart deleted i _) other off .downloading⟩
  · exact ⟨_,finishApart deleted other off _⟩

theorem destroyApart (A : Apart b n s s' lists) (other : i ≠ b) (mem : i ∈ lists k) :
    Apart b n (s.destroy i k) (s'.destroy i k) (dropItem lists k i) := by
  unfold Sched.destroy
  rw [A.tasks i other]
  have put := linksApart (putApart A i ((s.tasks i).setStage .finish)) other mem
  have freed := finishInfoApart put other (congrArg (fun task => task.info.stage) (putSelf s i _))
  exact ⟨freed.rings,freed.rings',freed.tasks,freed.created,freed.files,freed.ctrl⟩

theorem bodyApart (A : Apart b n s s' lists) (L : Listed s lists none) (other : i ≠ b) (l : Loop)
    (mem : i ∈ lists l.list) (name : (s.tasks i).localName ≠ n) (io : Io) :
    ∃ after,Apart b n (s.body i io l) (s'.body i io l) after := by
  have stage := L.stages l.list i mem
  have awake : Apart b n (s.wake i) (s'.wake i) lists := by
    unfold Sched.wake
    rw [A.tasks i other]
    exact putApart A i _
  have info : ((s.wake i).tasks i).info = (s.tasks i).info := by rw [Sched.wake,putSelf]
  cases l with
  | connect => exact connectApart A other mem (beq_iff_eq.mp stage) io
  | writeTimeout => exact timeoutApart A other mem "Write timeout 27 secs."
  | readTimeout => exact timeoutApart A other mem "Read timeout 27 secs."
  | finish =>
    exact ⟨_,finishInfoApart (delApart A other mem) other (beq_iff_eq.mp stage)⟩
  | read readSet writeSet =>
    simp only [Sched.body,A.tasks i other]
    split
    · have called : ((s.wake i).tasks i).localName ≠ n := by
        rw [Sched.wake,putSelf]
        exact name
      exact readApart awake other mem (by rw [info]; exact stage) called io
    · exact ⟨lists,A⟩
  | write writeSet =>
    simp only [Sched.body,A.tasks i other]
    split
    · exact writeApart awake other mem (by rw [info]; exact beq_iff_eq.mp stage) io
    · exact ⟨lists,A⟩
  | destroy k => exact ⟨_,destroyApart A other mem⟩

theorem ownApart (A : Apart b n s s' lists) (L : Listed s lists none) (l : Loop) (mem : b ∈ lists l.list)
    (name : (s.tasks b).localName = n) (io : Io) : ∃ after,Listed (s.body b io l) after none ∧
      (l.ends = true ∧ after = dropItem lists l.list b ∨ l.ends = false ∧ Moved lists l.list b after) ∧
      Apart b n (s.body b io l) s' after := by
  obtain ⟨after,listed,effect⟩ := bodyListed L l mem io
  have frame := frameBody s b io l
  have dropped : dropTask b (dropItem lists l.list b) = dropTask b lists := by
    rw [dropTaskDrop A.rings,if_pos rfl]
  have same : dropTask b after = dropTask b lists := by
    rcases effect with ⟨_,rfl⟩ | ⟨_,moved⟩
    · exact dropped
    · cases moved with
      | stay => rfl
      | move _ => rw [dropTaskOwn,dropped]
  refine ⟨after,listed,effect,listed.rings,same ▸ A.rings',fun i other => ?_,fun i other => ?_,fun m other => ?_,?_⟩
  · rw [frame.others i other]
    exact A.tasks i other
  · rw [frame.created]
    exact A.created i other
  · rw [frame.files m (name ▸ other)]
    exact A.files m other
  · rw [frame.ctrl]
    exact A.ctrl

theorem createApart (A : Apart b n s s' lists) {r : Request} 
    (name : (httpDlCreateInfo s r).1.created r.task = true → ((httpDlCreateInfo s r).1.tasks r.task).localName ≠ n) :
    Apart b n (httpDlCreateInfo s r).1 (httpDlCreateInfo s' r).1 lists ∧
      (httpDlCreateInfo s' r).2 = (httpDlCreateInfo s r).2 := by
  unfold httpDlCreateInfo at name ⊢
  split
  · exact ⟨A,rfl⟩
  · rename_i target url
    split
    · rename_i memory
      simp only [url,if_pos memory] at name
      unfold Sched.createInfo at name ⊢
      rcases Int.lt_or_le r.fd 0 with failed | fd
      · simp only [httpDlInitFilefd,if_pos failed]
        refine ⟨⟨A.rings,A.rings',A.tasks,fun j apart => ?_,A.files,A.ctrl⟩,trivial⟩
        simp only [Sched.waste,Function.update_apply,A.created j apart]
      · simp only [httpDlInitFilefd,if_neg (Int.not_lt.mpr fd)] at name ⊢
        have away : target.localName ≠ n := by simpa [Sched.opened] using name
        have found : s'.found r target = s.found r target := by
          unfold Sched.found
          rw [A.files _ away]
        rw [found]
        refine ⟨⟨A.rings,A.rings',fun j apart => ?_,fun j apart => ?_,fun m apart => ?_,A.ctrl⟩,trivial⟩
        · simp only [Sched.opened,Function.update_apply,A.tasks j apart]
        · simp only [Sched.opened,Function.update_apply,A.created j apart]
        · simp only [Sched.opened,Function.update_apply,A.files m apart,A.files _ away]
    · exact ⟨A,rfl⟩

theorem ctrlApart (A : Apart b n s s' lists) (L : Listed s lists none) {r : Request} (other : r.task ≠ b)
    (fresh : s.created r.task = false)
    (name : (httpDlHandleCtrlEvent s (some r)).created r.task = true →
      ((httpDlHandleCtrlEvent s (some r)).tasks r.task).localName ≠ n) :
    Apart b n (httpDlHandleCtrlEvent s (some r)) (httpDlHandleCtrlEvent s' (some r))
      (if (httpDlCreateInfo s r).2 then addItem lists .initial r.task else lists) := by
  obtain ⟨created,stage⟩ := createListed L fresh
  have off (made : (httpDlCreateInfo s r).2 = true) : ∀ k,r.task ∉ lists k := by
    rw [if_pos made] at created
    exact created.away r.task rfl
  have same : (httpDlHandleCtrlEvent s (some r)).created = (httpDlCreateInfo s r).1.created ∧
      (httpDlHandleCtrlEvent s (some r)).tasks = (httpDlCreateInfo s r).1.tasks := by
    unfold httpDlHandleCtrlEvent httpDlAddInfoToInitialList
    dsimp only
    split
    · split <;> exact ⟨rfl,rfl⟩
    · exact ⟨rfl,rfl⟩
  rw [same.1,same.2] at name
  obtain ⟨apart,alike⟩ := createApart A name
  unfold httpDlHandleCtrlEvent
  simp only [alike]
  split
  · rename_i made
    unfold httpDlAddInfoToInitialList
    rw [apart.tasks r.task other,if_neg (not_not_intro (stage made)),if_neg (not_not_intro (stage made))]
    exact addApart apart other (off made) .initial
  · exact apart

theorem ctrlOwn (A : Apart b n s s' lists) (L : Listed s lists none) {r : Request} (own : r.task = b)
    (fresh : s.created r.task = false)
    (name : (httpDlHandleCtrlEvent s (some r)).created b = true →
      ((httpDlHandleCtrlEvent s (some r)).tasks b).localName = n) :
    Apart b n (httpDlHandleCtrlEvent s (some r)) s'
      (if (httpDlCreateInfo s r).2 then addItem lists .initial r.task else lists) := by
  obtain ⟨others,files,ctrl⟩ := ctrlFrame s r
  rw [own] at others files
  refine ⟨(ctrlListed L fresh).rings,?_,fun i apart => ?_,fun i apart => ?_,fun m apart => ?_,?_⟩
  · rw [own]
    split
    · rw [dropTaskOwn]
      exact A.rings'
    · exact A.rings'
  · rw [(others i apart).1]
    exact A.tasks i apart
  · rw [(others i apart).2]
    exact A.created i apart
  · rcases files m with same | ⟨created,here⟩
    · rw [same]
      exact A.files m apart
    · exact absurd (here.trans (name created)) apart
  · rw [ctrl]
    exact A.ctrl

end apart

inductive Paced (b : TaskId) (lists : ListName → List TaskId) : Pc → Pc → Prop
  | top : Paced b lists .top .top
  | ctrl (readSet writeSet : List Int) : Paced b lists (.ctrl readSet writeSet) (.ctrl readSet writeSet)
  | loop {l : Loop} {pos : Node ListName TaskId} {before rest : List TaskId} (W : Walking lists l pos before rest) :
      Paced b lists (.loop l pos) (.loop l (first l.list (rest.filter (· ≠ b))))
  | done : Paced b lists .done .done

structure Beside (b : TaskId) (n : Bytes) (s s' : Sched) (lists : ListName → List TaskId) : Prop where
  apart : Apart b n s s' lists
  listed : Listed s lists none
  paced : Paced b lists s.pc s'.pc

def without (b : TaskId) : Event → Option Event
  | .body i io => if i = b then none else some (.body i io)
  | .ctrl (some r) => some (.ctrl (if r.task = b then none else some r))
  | e => some e

section steps
variable {b : TaskId} {n : Bytes} {s s' t t' : Sched} {lists : ListName → List TaskId}

theorem pcBeside (A : Apart b n s s' lists) (L : Listed s lists none) {pc pc' : Pc} (paced : Paced b lists pc pc') :
    Beside b n { s with pc := pc } { s' with pc := pc' } lists :=
  ⟨⟨A.rings,A.rings',A.tasks,A.created,A.files,A.ctrl⟩,
    ⟨L.rings,L.count,L.stages,L.away,L.live,L.gone,L.right⟩,paced⟩

theorem enterBeside (A : Apart b n s s' lists) (L : Listed s lists none) {l : Loop} (swept : l.swept lists) :
    Beside b n (s.enter l) (s'.enter l) lists := by
  have walking : Walking lists l (s.links.next (.head l.list)) [] (lists l.list) :=
    ⟨rfl,ringsEnter L.rings l.list,fun _ => rfl,swept⟩
  have pos : s'.links.next (.head l.list) = first l.list ((lists l.list).filter (· ≠ b)) := ringsEnter A.rings' l.list
  have paced := Paced.loop (b := b) walking
  rw [← pos] at paced
  exact pcBeside A L paced

theorem leaveBeside (A : Apart b n s s' lists) (L : Listed s lists none) {l : Loop} {before rest : List TaskId}
    (W : Walking lists l (.head l.list) before rest) : Beside b n (s.leave l) (s'.leave l) lists := by
  cases leaveCases W with
  | enter next same swept =>
    rw [same,same]
    exact enterBeside A L swept
  | top same =>
    rw [same,same]
    exact pcBeside A L .top
  | done same empty =>
    rw [same,same]
    exact pcBeside A L .done

def Followed (b : TaskId) (n : Bytes) (s' t : Sched) (e : Option Event) : Prop :=
  ∃ t' after,run Sched.step s' e.toList = some t' ∧ Beside b n t t' after

theorem followedBy {e : Event} (stepped : Stepped s' e t') (beside : Beside b n t t' lists) :
    Followed b n s' t (some e) :=
  ⟨t',lists,by simp only [Option.toList,run,stepIff.mpr stepped,Option.bind_some],beside⟩

theorem pacedSame {pc pc' : Pc} (paced : Paced b lists pc pc') (loose : ∀ l pos,pc ≠ .loop l pos) : pc' = pc := by
  cases paced with
  | loop W => exact absurd rfl (loose _ _)
  | _ => rfl

theorem pacedLoop {l : Loop} {pos : Node ListName TaskId} {pc' : Pc} (paced : Paced b lists (.loop l pos) pc') :
    ∃ before rest,Walking lists l pos before rest ∧ pc' = .loop l (first l.list (rest.filter (· ≠ b))) := by
  cases paced with
  | loop W => exact ⟨_,_,W,rfl⟩

theorem quitBeside (A : Apart b n s s' lists) (L : Listed s lists none) : Beside b n s.quit s'.quit lists :=
  enterBeside (l := .destroy .initial) (fdsApart A (s.fds.erase s.ctrlSockfd) (s'.fds.erase s'.ctrlSockfd))
    ⟨L.rings,L.count,L.stages,L.away,L.live,L.gone,L.right⟩ trivial

theorem besideBody (B : Beside b n s s' lists) {l : Loop} {i : TaskId} {io : Io} (pc : s.pc = .loop l (.item i))
    (possible : s.possible i io l = true) (names : i ≠ b → (s.tasks i).localName ≠ n)
    (own : i = b → (s.tasks b).localName = n) :
    Followed b n s' { s.body i io l with pc := .loop l (s.links.next (.item i)) } (without b (.body i io)) := by
  have paced := B.paced
  rw [pc] at paced
  obtain ⟨before,rest,W,pc'⟩ := pacedLoop paced
  cases rest with
  | nil => cases W.pos
  | cons j rest =>
    cases W.pos
    have mem : i ∈ lists l.list := by
      rw [W.items]
      simp
    rcases Decidable.em (i = b) with rfl | other
    · obtain ⟨after,listed,effect,apart⟩ := ownApart B.apart B.listed l mem (own rfl) io
      obtain ⟨before,walking⟩ := bodyWalking B.listed W effect
      have still := Paced.loop (b := i) walking
      have gone : (i :: rest).filter (· ≠ i) = rest.filter (· ≠ i) := by simp
      rw [gone] at pc'
      rw [← pc'] at still
      refine ⟨s',after,by simp [without,run],?_⟩
      exact pcBeside apart listed still
    · obtain ⟨after,apart⟩ := bodyApart B.apart B.listed other l mem (names other) io
      obtain ⟨after',listed,effect⟩ := bodyListed B.listed l mem io
      cases ringsUnique apart.rings listed.rings
      obtain ⟨before',walking⟩ := bodyWalking B.listed W effect
      have kept : (i :: rest).filter (· ≠ b) = i :: rest.filter (· ≠ b) := by simp [other]
      rw [kept] at pc'
      have items : dropTask b lists l.list = before.filter (· ≠ b) ++ i :: rest.filter (· ≠ b) := by
        rw [dropTask,W.items,List.filter_append,kept]
      have next : s'.links.next (.item i) = first l.list (rest.filter (· ≠ b)) := ringsBehind B.apart.rings' items
      have possible' : s'.possible i io l = true := by
        rw [← possible]
        unfold Sched.possible
        rw [B.apart.tasks i other]
      have still := Paced.loop (b := b) walking
      rw [← next] at still
      have dropped : without b (.body i io) = some (.body i io) := by simp [without,other]
      rw [dropped]
      exact followedBy (.body pc' possible') (pcBeside apart listed still)

theorem besideCtrl (B : Beside b n s s' lists) {readSet writeSet : List Int} {datagram : Option Request}
    (pc : s.pc = .ctrl readSet writeSet) (set : s.ctrlSockfd ∈ readSet) (fresh : ∀ r ∈ datagram,s.created r.task = false)
    (names : ∀ i,i ≠ b → (httpDlHandleCtrlEvent s datagram).created i = true →
      ((httpDlHandleCtrlEvent s datagram).tasks i).localName ≠ n)
    (own : (httpDlHandleCtrlEvent s datagram).created b = true →
      ((httpDlHandleCtrlEvent s datagram).tasks b).localName = n) :
    Followed b n s' ((httpDlHandleCtrlEvent s datagram).enter (.read readSet writeSet)) (without b (.ctrl datagram)) := by
  have pc' : s'.pc = .ctrl readSet writeSet := by
    rw [← pc]
    exact pacedSame B.paced fun l pos loop => by rw [pc] at loop; cases loop
  have set' : s'.ctrlSockfd ∈ readSet := by
    rw [B.apart.ctrl]
    exact set
  cases datagram with
  | none => exact followedBy (.ctrl pc' set' nofun) (enterBeside B.apart B.listed trivial)
  | some r =>
    have new := fresh r rfl
    have listed := ctrlListed B.listed new
    rcases Decidable.em (r.task = b) with same | other
    · have dropped : without b (.ctrl (some r)) = some (.ctrl none) := by simp [without,same]
      rw [dropped]
      exact followedBy (.ctrl pc' set' nofun) (enterBeside (ctrlOwn B.apart B.listed same new own) listed trivial)
    · have dropped : without b (.ctrl (some r)) = some (.ctrl (some r)) := by simp [without,other]
      rw [dropped]
      refine followedBy (.ctrl pc' set' fun q held => ?_)
        (enterBeside (ctrlApart B.apart B.listed other new (names r.task other)) listed trivial)
      cases Option.some.inj held
      rw [B.apart.created r.task other]
      exact new

theorem stepBeside {e : Event} (B : Beside b n s s' lists) (next : s.step e = some t)
    (names : ∀ i,i ≠ b → t.created i = true → (t.tasks i).localName ≠ n)
    (own : t.created b = true → (t.tasks b).localName = n) : Followed b n s' t (without b e) := by
  have idle (pc : ∀ l pos,s.pc ≠ .loop l pos) : s'.pc = s.pc := pacedSame B.paced pc
  cases stepIff.mp next with
  | exit top => exact followedBy (.exit ((idle (by simp [top])).trans top)) (quitBeside B.apart B.listed)
  | timeout top =>
    exact followedBy (.timeout ((idle (by simp [top])).trans top)) (enterBeside B.apart B.listed trivial)
  | eintr top => exact followedBy (.eintr ((idle (by simp [top])).trans top)) B
  | error top => exact followedBy (.error ((idle (by simp [top])).trans top)) (quitBeside B.apart B.listed)
  | ready top =>
    exact followedBy (.ready ((idle (by simp [top])).trans top)) (pcBeside B.apart B.listed (.ctrl _ _))
  | @quiet readSet writeSet datagram pc unset =>
    have unset' : s'.ctrlSockfd ∉ readSet := by
      rw [B.apart.ctrl]
      exact unset
    have quiet (event : Option Request) := followedBy (e := .ctrl event)
      (.quiet ((idle (by simp [pc])).trans pc) unset') (enterBeside B.apart B.listed (l := .read readSet writeSet) trivial)
    cases datagram with
    | none => exact quiet none
    | some r => exact quiet _
  | ctrl pc set fresh => exact besideCtrl B pc set fresh names own
  | @body l i io pc possible =>
    have paced := B.paced
    rw [pc] at paced
    obtain ⟨_,_,W,_⟩ := pacedLoop paced
    have on : s.pc.on lists := by
      rw [pc]
      exact ⟨_,_,W⟩
    have mem := walkingMem on pc
    obtain ⟨live,_⟩ := B.listed.live i (.inl ⟨_,mem⟩)
    obtain ⟨still,name⟩ := stepNames next live
    refine besideBody B pc possible (fun other => ?_) (fun same => ?_)
    · rw [← name]
      exact names i other still
    · cases same
      rw [← name]
      exact own still
  | @leave l pc =>
    have paced := B.paced
    rw [pc] at paced
    obtain ⟨before,rest,W,pc'⟩ := pacedLoop paced
    rw [walkingEnd W] at pc'
    exact followedBy (.leave pc') (leaveBeside B.apart B.listed W)

theorem runBeside (es : List Event) (B : Beside b n s s' lists) (path : run Sched.step s es = some t)
    (names : ∀ i,i ≠ b → t.created i = true → (t.tasks i).localName ≠ n)
    (own : t.created b = true → (t.tasks b).localName = n) :
    ∃ t' after,run Sched.step s' (es.filterMap (without b)) = some t' ∧ Beside b n t t' after := by
  induction es generalizing s s' lists with
  | nil =>
    cases path
    exact ⟨s',lists,rfl,B⟩
  | cons e es ih =>
    obtain ⟨u,next,rest⟩ := Option.bind_eq_some_iff.mp path
    have early (i : TaskId) (created : u.created i = true) := runNames rest created
    obtain ⟨u',between,first,beside⟩ := stepBeside B next
      (fun i other created => by
        rw [← (early i created).2]
        exact names i other (early i created).1)
      (fun created => by
        rw [← (early b created).2]
        exact own (early b created).1)
    obtain ⟨t',after,last,end_⟩ := ih beside rest
    refine ⟨t',after,?_,end_⟩
    have split_ : (e :: es).filterMap (without b) = (without b e).toList ++ es.filterMap (without b) := by
      cases gone : without b e <;> simp [gone]
    rw [split_]
    exact runAppend first last

theorem startBeside (b : TaskId) (n : Bytes) (files : Bytes → Option Bytes) (ctrlSockfd : Int) :
    Beside b n (Sched.start files ctrlSockfd) (Sched.start files ctrlSockfd) fun _ => [] := by
  obtain ⟨lists,listed,_⟩ := startScheduled files ctrlSockfd
  cases ringsUnique listed.rings emptyRings
  exact ⟨⟨emptyRings,emptyRings,fun _ _ => rfl,fun _ _ => rfl,fun _ _ => rfl,rfl⟩,listed,.top⟩

end steps

/-- A task whose local name no other task of the run has leaves every other file as it is without the task. -/
theorem taskIsolated (files : Bytes → Option Bytes) (ctrlSockfd : Int) (es : List Event) (b : TaskId) {t : Sched}
    (path : run Sched.step (Sched.start files ctrlSockfd) es = some t)
    (alone : ∀ i,i ≠ b → t.created i = true → (t.tasks i).localName ≠ (t.tasks b).localName) :
    ∃ t',run Sched.step (Sched.start files ctrlSockfd) (es.filterMap (without b)) = some t' ∧
      ∀ name,name ≠ (t.tasks b).localName → t'.files name = t.files name := by
  obtain ⟨t',after,path',beside⟩ := runBeside es (startBeside b _ files ctrlSockfd) path alone fun _ => rfl
  exact ⟨t',path',beside.apart.files⟩

def urlsOf (first second : String) : List Event :=
  [.select (.ready [3] []),.ctrl (some ⟨ascii first,true,0,true,4⟩),.leave,.leave,
    .select (.ready [3] []),.ctrl (some ⟨ascii second,true,1,true,5⟩),.leave,.leave,
    .select .timeout,.body 0 { conn := .connected 6 },.body 1 { conn := .connected 7 },.leave,.body 0 {},.body 1 {},.leave,
    .leave,.leave,.select (.ready [] [6,7]),.ctrl none,.leave,.body 0 { sent := true },.body 1 { sent := true },.leave,
    .select (.ready [6] []),.ctrl none,
    .body 0 { nread := .data (ascii "HTTP/1.1 200 OK\r\nContent-Length: 1\r\n\r\nA"),results := [.wrote 1] },
    .body 1 {},.leave,.leave,.select (.ready [7] []),.ctrl none,
    .body 0 {},.body 1 { nread := .data (ascii "HTTP/1.1 200 OK\r\nContent-Length: 1\r\n\r\nB"),results := [.wrote 1] },.leave,.leave]

theorem taskIsolatedPlain : ∃ t t',run Sched.step (Sched.start (fun _ => none) 3) (urlsOf "1.2.3.4/x/f" "1.2.3.4/y/g") = some t ∧
    run Sched.step (Sched.start (fun _ => none) 3)
      ((urlsOf "1.2.3.4/x/f" "1.2.3.4/y/g").filterMap (without 1)) = some t' ∧
    t.files (ascii "g") = some (ascii "B") ∧ t'.files (ascii "f") = t.files (ascii "f") := by
  have ran : (run Sched.step (Sched.start (fun _ => none) 3) (urlsOf "1.2.3.4/x/f" "1.2.3.4/y/g")).map
      (fun t => (t.files (ascii "g"),(t.tasks 0).localName,(t.tasks 1).localName)) =
      some (some (ascii "B"),ascii "f",ascii "g") := by
    decide +kernel
  obtain ⟨t,path,same⟩ := Option.map_eq_some_iff.mp ran
  simp only [Prod.mk.injEq] at same
  obtain ⟨content,first,second⟩ := same
  have only (i : TaskId) (created : t.created i = true) : i = 0 ∨ i = 1 := by
    rcases runCreates path created with early | ⟨r,mem,same⟩
    · cases early
    · simp [urlsOf] at mem
      rcases mem with rfl | rfl
      · exact .inl same.symm
      · exact .inr same.symm
  obtain ⟨t',path',alike⟩ := taskIsolated (fun _ => none) 3 _ 1 path fun i other created => by
    rcases only i created with rfl | rfl
    · rw [first,second]
      decide
    · exact absurd rfl other
  exact ⟨t,t',path,path',content,alike _ (by rw [second]; decide)⟩

theorem sharedFile : (run Sched.step (Sched.start (fun _ => none) 3) (urlsOf "1.2.3.4/x/f" "1.2.3.4/y/f")).map
      (fun t => t.files (t.tasks 0).localName) = some (some (ascii "AB")) ∧
    (run Sched.step (Sched.start (fun _ => none) 3) ((urlsOf "1.2.3.4/x/f" "1.2.3.4/y/f").filterMap (without 1))).map
      (fun t => t.files (t.tasks 0).localName) = some (some (ascii "A")) := by
  decide +kernel

end MipsElfExec.Download

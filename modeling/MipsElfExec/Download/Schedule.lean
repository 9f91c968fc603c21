import MipsElfExec.Download.Progress
import MipsElfExec.Download.Scheduler

/-! What holds at every step of the scheduler: each task is on one list, the counts are the lengths,
and the stage of a task is one that its list is for. -/
namespace MipsElfExec.Download
open CString MipsElfExec.Ring Run

section receive

structure Kept (info next : Info) (ret : Ret) : Prop where
  sockfd : next.sockfd = info.sockfd
  filefd : next.filefd = info.filefd
  right : ret ≠ .internal
  reading : next.stage.reading = true

def Stage.passes : Stage → Nat
  | .parseStatusLine => 3
  | .parseHeader => 2
  | .recvContent => 1
  | _ => 0

theorem statusCodeRet (p : Bytes) (start lineEnd : Nat) :
    (parseStatusCode p start lineEnd).ret = .ok ∨ (parseStatusCode p start lineEnd).ret = .http := by
  unfold parseStatusCode
  split
  · dsimp only
    repeat' split
    all_goals first | exact .inl rfl | exact .inr rfl
  · exact .inr rfl

theorem statusLineRet (text : Bytes) (lineEnd : Nat) :
    (parseStatusLine text lineEnd).ret = .ok ∨ (parseStatusLine text lineEnd).ret = .http := by
  unfold parseStatusLine
  dsimp only
  repeat' split
  all_goals first | exact .inr rfl | exact statusCodeRet _ _ _

theorem statusLineKept {info : Info} (stage : info.stage = .parseStatusLine) :
    Kept info (httpDlParseStatusLine info).1 (httpDlParseStatusLine info).2 ∧
      ((httpDlParseStatusLine info).2 = .again → (httpDlParseStatusLine info).1.stage = .parseHeader) := by
  have here : info.stage.reading = true := by rw [stage]; rfl
  have either (line : StatusLine) : (info.terminate.takeStatus line).stage.reading = true := by
    simp only [Info.takeStatus,Info.terminate]
    split
    · rfl
    · exact here
  unfold httpDlParseStatusLine
  rw [if_neg (not_not_intro stage)]
  dsimp only
  split
  · exact ⟨⟨rfl,rfl,Ret.noConfusion,here⟩,Ret.noConfusion⟩
  · rename_i lineEnd _
    rcases statusLineRet info.terminate.text lineEnd with fine | bad
    · rw [if_neg (not_not_intro fine)]
      refine ⟨⟨rfl,rfl,?_,either _⟩,fun _ => if_pos fine⟩
      dsimp only
      split <;> exact Ret.noConfusion
    · rw [if_pos (by rw [bad]; exact Ret.noConfusion),bad]
      exact ⟨⟨rfl,rfl,Ret.noConfusion,either _⟩,Ret.noConfusion⟩

theorem headerLinesKept (fuel : Nat) (info : Info) (stage : info.stage = .parseHeader) :
    Kept info (httpDlHeaderLines fuel info).1 (httpDlHeaderLines fuel info).2 ∧
      ((httpDlHeaderLines fuel info).2 = .again → (httpDlHeaderLines fuel info).1.stage = .recvContent) := by
  have here : info.stage.reading = true := by rw [stage]; rfl
  induction fuel generalizing info with
  | zero => exact ⟨⟨rfl,rfl,Ret.noConfusion,here⟩,Ret.noConfusion⟩
  | succ fuel ih =>
    unfold httpDlHeaderLines
    split
    · exact ⟨⟨rfl,rfl,Ret.noConfusion,here⟩,Ret.noConfusion⟩
    · exact ⟨⟨rfl,rfl,Ret.noConfusion,rfl⟩,fun _ => rfl⟩
    · rename_i lineEnd _ _
      obtain ⟨contentLen,totalLen,frame⟩ := headerLineFrame info info.text
      dsimp only
      rw [frame]
      obtain ⟨⟨sockfd,filefd,right,reading⟩,later⟩ := @ih
        { { info with contentLen := contentLen,totalLen := totalLen } with bufData := info.bufData + lineEnd + 2 } stage here
      exact ⟨⟨sockfd,filefd,right,reading⟩,later⟩

theorem flushKept (info : Info) (file : File) (results : List WriteResult) :
    (httpDlFlushBufData info file results).1.sockfd = info.sockfd ∧
    (httpDlFlushBufData info file results).1.filefd = info.filefd ∧
    (httpDlFlushBufData info file results).1.stage = info.stage := by
  unfold httpDlFlushBufData
  dsimp only
  repeat' split
  all_goals exact ⟨rfl,rfl,rfl⟩

theorem stageKept {info : Info} (reading : info.stage.reading = true) (file : File) (results : List WriteResult) :
    Kept info (httpDlStage info file results).1 (httpDlStage info file results).2.2 ∧
      ((httpDlStage info file results).2.2 = .again →
        (httpDlStage info file results).1.stage.passes < info.stage.passes) := by
  unfold httpDlStage
  cases stage : info.stage with
  | parseStatusLine =>
    obtain ⟨kept,later⟩ := statusLineKept stage
    exact ⟨kept,fun again => by rw [later again]; decide⟩
  | parseHeader =>
    unfold httpDlParseHeader
    rw [if_neg (not_not_intro stage)]
    obtain ⟨⟨sockfd,filefd,right,going⟩,later⟩ := headerLinesKept info.terminate.buf.length info.terminate stage
    exact ⟨⟨sockfd,filefd,right,going⟩,fun again => by dsimp only; rw [later again]; decide⟩
  | recvContent =>
    obtain ⟨sockfd,filefd,same⟩ := flushKept info file results
    unfold httpDlRecvContent
    dsimp only
    rw [if_neg (not_not_intro stage)]
    split
    · exact ⟨⟨rfl,rfl,Ret.noConfusion,reading⟩,Ret.noConfusion⟩
    · exact ⟨⟨sockfd,filefd,Ret.noConfusion,by rw [same]; exact reading⟩,Ret.noConfusion⟩
  | init => rw [stage] at reading; cases reading
  | sendRequest => rw [stage] at reading; cases reading
  | finish => rw [stage] at reading; cases reading

theorem adjustKept (info : Info) : (httpDlAdjustInfoBuf info).sockfd = info.sockfd ∧
    (httpDlAdjustInfoBuf info).filefd = info.filefd ∧ (httpDlAdjustInfoBuf info).stage = info.stage := by
  unfold httpDlAdjustInfoBuf Info.compact
  dsimp only
  repeat' split
  all_goals exact ⟨rfl,rfl,rfl⟩

theorem passesPos {stage : Stage} (reading : stage.reading = true) : 0 < stage.passes := by
  cases stage <;> first | decide | cases reading

theorem stagesKept (passes : Nat) (info : Info) (reading : info.stage.reading = true)
    (enough : info.stage.passes ≤ passes) (file : File) (results : List WriteResult) :
    Kept info (httpDlStages passes info file results).1 (httpDlStages passes info file results).2.2 := by
  induction passes generalizing info file with
  | zero => exact absurd (passesPos reading) (Nat.not_lt.mpr enough)
  | succ passes ih =>
    obtain ⟨kept,later⟩ := stageKept reading file results
    unfold httpDlStages
    dsimp only
    split
    · rename_i again
      have next := ih _ kept.reading (by have := later again; omega) (httpDlStage info file results).2.1
      exact ⟨next.sockfd.trans kept.sockfd,next.filefd.trans kept.filefd,next.right,next.reading⟩
    · obtain ⟨sockfd,filefd,stage⟩ := adjustKept (httpDlStage info file results).1
      exact ⟨sockfd.trans kept.sockfd,filefd.trans kept.filefd,Ret.noConfusion,by rw [stage]; exact kept.reading⟩
    · exact ⟨kept.sockfd,kept.filefd,Ret.noConfusion,kept.reading⟩
    · exact kept

theorem recvKept {info : Info} (reading : info.stage.reading = true) (file : File) (nread : ReadResult)
    (results : List WriteResult) :
    Kept info (httpDlRecvResp info file nread results).1 (httpDlRecvResp info file nread results).2.2 := by
  unfold httpDlRecvResp
  split
  · exact ⟨rfl,rfl,Ret.noConfusion,reading⟩
  · obtain ⟨sockfd,filefd,stage⟩ := flushKept info file results
    exact ⟨sockfd,filefd,Ret.noConfusion,by rw [stage]; exact reading⟩
  · rename_i bytes _
    have small : (info.receive bytes).stage.passes ≤ 3 := by cases (info.receive bytes).stage <;> decide
    obtain ⟨sockfd,filefd,right,going⟩ := stagesKept 3 (info.receive bytes) reading small file results
    exact ⟨sockfd,filefd,right,going⟩

end receive

def ListName.holds : ListName → Stage → Bool
  | .initial,stage => stage == .init
  | .requesting,stage => stage == .sendRequest
  | .downloading,stage => stage.reading
  | .finished,stage => stage == .finish

structure Listed (s : Sched) (lists : ListName → List TaskId) (hand : Option TaskId) : Prop where
  rings : Rings s.links lists
  count : ∀ k,s.count k = (lists k).length
  stages : ∀ k,∀ i ∈ lists k,k.holds (s.tasks i).info.stage = true
  away : ∀ i ∈ hand,∀ k,i ∉ lists k
  live : ∀ i,(∃ k,i ∈ lists k) ∨ i ∈ hand → s.created i = true ∧ s.freed i = 0
  gone : ∀ i,(∀ k,i ∉ lists k) → i ∉ hand → s.freed i = (s.created i).toNat
  right : s.wrongStage = false

section moves
variable {s : Sched} {lists : ListName → List TaskId} {i : TaskId} {k : ListName} {hand : Option TaskId}

theorem putListed (L : Listed s lists hand) (task : Task)
    (stage : ∀ k,i ∈ lists k → k.holds task.info.stage = true) : Listed (s.put i task) lists hand := by
  refine ⟨L.rings,L.count,fun k j mem => ?_,L.away,L.live,L.gone,L.right⟩
  rcases Decidable.em (j = i) with rfl | other
  · rw [putSelf]
    exact stage k mem
  · rw [putOther s other]
    exact L.stages k j mem

theorem addListed (L : Listed s lists (some i)) (stage : k.holds (s.tasks i).info.stage = true) :
    Listed (httpDlAddInfoToList s i k) (addItem lists k i) none := by
  refine ⟨ringsAddTail L.rings (L.away i rfl) k,fun m => ?_,fun m j mem => ?_,nofun,fun j on => ?_,fun j off _ => ?_,L.right⟩
  · simp only [httpDlAddInfoToList,addItem,Function.update_apply]
    split
    · rw [L.count k,List.length_append,List.length_singleton]
      omega
    · exact L.count m
  · rcases memAddItem.mp mem with old | ⟨rfl,rfl⟩
    · exact L.stages m j old
    · exact stage
  · rcases on with ⟨m,mem⟩ | hand
    · rcases memAddItem.mp mem with old | ⟨rfl,_⟩
      · exact L.live j (.inl ⟨m,old⟩)
      · exact L.live j (.inr rfl)
    · cases hand
  · refine L.gone j (fun m mem => off m (memAddItem.mpr (.inl mem))) fun held => ?_
    cases Option.some.inj held
    exact off k (memAddItem.mpr (.inr ⟨rfl,rfl⟩))

theorem dropRest (L : Listed s lists none) (mem : i ∈ lists k) {u : Sched} (rings : Rings u.links (dropItem lists k i))
    (tasks : ∀ j,j ≠ i → u.tasks j = s.tasks j) (created : u.created = s.created)
    (freed : u.freed = s.freed) (right : u.wrongStage = s.wrongStage) :
    Listed { u with count := Function.update s.count k (s.count k - 1) } (dropItem lists k i) (some i) := by
  refine ⟨rings,fun m => ?_,fun m j on => ?_,?_,fun j on => ?_,fun j off out => ?_,right.trans L.right⟩
  · simp only [dropItem,Function.update_apply]
    split
    · have pos := List.length_pos_of_mem mem
      rw [L.count k,List.length_erase_of_mem mem]
      omega
    · exact L.count m
  · obtain ⟨old,other⟩ := (memDrop L.rings mem).mp on
    dsimp only
    rw [tasks j other]
    exact L.stages m j old
  · rintro j ⟨⟩ m on
    exact ((memDrop L.rings mem).mp on).2 rfl
  · dsimp only
    rw [created,freed]
    rcases on with ⟨m,on⟩ | held
    · exact L.live j (.inl ⟨m,((memDrop L.rings mem).mp on).1⟩)
    · cases held
      exact L.live i (.inl ⟨k,mem⟩)
  · dsimp only
    rw [created,freed]
    have apart : j ≠ i := by
      rintro rfl
      exact out rfl
    have empty : j ∉ (none : Option TaskId) := by simp
    exact L.gone j (fun m on => off m ((memDrop L.rings mem).mpr ⟨on,apart⟩)) empty

theorem delListed (L : Listed s lists none) (mem : i ∈ lists k) :
    Listed (httpDlDelInfoFromList s i k) (dropItem lists k i) (some i) :=
  dropRest (u := { s with links := listDelInit s.links i }) L mem (ringsDrop L.rings mem) (fun _ _ => rfl) rfl rfl rfl

theorem finishListed (L : Listed s lists (some i)) (task : Task) :
    Listed (s.finish i task) (addItem lists .finished i) none := by
  refine addListed (putListed L _ fun k mem => absurd mem (L.away i rfl k)) ?_
  rw [putSelf]
  rfl

theorem freeListed (L : Listed s lists (some i)) (stage : (s.tasks i).info.stage = .finish) :
    Listed (httpDlFinishInfo s i) lists none := by
  obtain ⟨created,freed⟩ := L.live i (.inr rfl)
  unfold httpDlFinishInfo
  rw [if_neg (not_not_intro stage)]
  refine ⟨L.rings,L.count,L.stages,nofun,fun j on => ?_,fun j off _ => ?_,L.right⟩
  · rcases on with ⟨m,on⟩ | held
    · have other : j ≠ i := fun same => L.away i rfl m (same ▸ on)
      dsimp only
      rw [Function.update_of_ne other]
      exact L.live j (.inl ⟨m,on⟩)
    · cases held
  · dsimp only
    rcases Decidable.em (j = i) with rfl | other
    · rw [Function.update_self,freed,created]
      rfl
    · rw [Function.update_of_ne other]
      exact L.gone j off fun held => other (Option.some.inj held).symm

inductive Moved (lists : ListName → List TaskId) (k : ListName) (i : TaskId) : (ListName → List TaskId) → Prop
  | stay : Moved lists k i lists
  | move {m : ListName} (other : m ≠ k) : Moved lists k i (addItem (dropItem lists k i) m i)

theorem connectListed (L : Listed s lists none) (mem : i ∈ lists .initial) (io : Io) :
    ∃ after,Listed (s.connect i io) after none ∧ Moved lists .initial i after := by
  have stage : (s.tasks i).info.stage = .init := beq_iff_eq.mp (L.stages .initial i mem)
  have deleted := delListed L mem
  unfold Sched.connect httpDlDelInfoFromInitialList
  rw [if_neg (not_not_intro stage)]
  dsimp only
  split
  · rename_i fd _
    refine ⟨_,addListed (k := .requesting) ?_ ?_,.move (by decide)⟩
    · have put := putListed deleted (((s.tasks i).setSockfd fd).setStage .sendRequest)
        fun k mem => absurd mem (deleted.away i rfl k)
      exact ⟨put.rings,put.count,put.stages,put.away,put.live,put.gone,put.right⟩
    · rw [putSelf]
      rfl
  · exact ⟨_,finishListed deleted _,.move (by decide)⟩

theorem timeoutListed (L : Listed s lists none) (mem : i ∈ lists k) (other : .finished ≠ k) (msg : String) :
    ∃ after,Listed (s.timeout i k msg) after none ∧ Moved lists k i after := by
  unfold Sched.timeout
  dsimp only
  split
  · exact ⟨lists,putListed L _ fun m on => L.stages m i on,.stay⟩
  · exact ⟨_,finishListed (delListed L mem) _,.move other⟩

theorem wakeListed (L : Listed s lists none) (i : TaskId) : Listed (s.wake i) lists none :=
  putListed L _ fun m on => L.stages m i on

theorem readListed (L : Listed s lists none) (mem : i ∈ lists .downloading) (io : Io) :
    ∃ after,Listed (httpDlHandleReadEvent s i io) after none ∧ Moved lists .downloading i after := by
  have stage : (s.tasks i).info.stage.reading = true := L.stages .downloading i mem
  have kept : Kept (s.tasks i).info (s.recv i io).1 (s.recv i io).2.2 := recvKept stage _ _ _
  have received : Listed (s.received i io) lists none := by
    have put := putListed L ({ s.tasks i with
      info := (s.recv i io).1,append := (s.recv i io).2.1.append,pos := (s.recv i io).2.1.pos }) fun k on => by
        cases L.rings.apart on mem
        exact kept.reading
    refine ⟨put.rings,put.count,put.stages,put.away,put.live,put.gone,?_⟩
    have fine : ((s.recv i io).2.2 == .internal) = false := beq_eq_false_iff_ne.mpr kept.right
    simp only [Sched.received,L.right,fine,Bool.or_self]
  unfold httpDlHandleReadEvent
  rw [if_pos stage]
  dsimp only
  split
  · exact ⟨lists,received,.stay⟩
  · exact ⟨_,finishListed (delListed received mem) _,.move (by decide)⟩

theorem writeListed (L : Listed s lists none) (mem : i ∈ lists .requesting) (io : Io) :
    ∃ after,Listed (httpDlHandleWriteEvent s i io) after none ∧ Moved lists .requesting i after := by
  have stage : (s.tasks i).info.stage = .sendRequest := beq_iff_eq.mp (L.stages .requesting i mem)
  have deleted := delListed L mem
  unfold httpDlHandleWriteEvent
  rw [if_neg (not_not_intro stage)]
  dsimp only
  split
  · refine ⟨_,addListed (k := .downloading) (putListed deleted _ fun k mem => absurd mem (deleted.away i rfl k)) ?_,
      .move (by decide)⟩
    rw [putSelf]
    rfl
  · exact ⟨_,finishListed deleted _,.move (by decide)⟩

theorem finishedListed (L : Listed s lists none) (mem : i ∈ lists .finished) :
    Listed (httpDlFinishInfo (httpDlDelInfoFromList s i .finished) i) (dropItem lists .finished i) none :=
  freeListed (delListed L mem) (beq_iff_eq.mp (L.stages .finished i mem))

theorem finishInfoCount (s : Sched) (i : TaskId) (k : ListName) :
    { httpDlFinishInfo s i with
        count := Function.update (httpDlFinishInfo s i).count k ((httpDlFinishInfo s i).count k - 1) } =
      httpDlFinishInfo { s with count := Function.update s.count k (s.count k - 1) } i := by
  unfold httpDlFinishInfo
  dsimp only
  split <;> rfl

theorem destroyListed (L : Listed s lists none) (mem : i ∈ lists k) : Listed (s.destroy i k) (dropItem lists k i) none := by
  have deleted := dropRest (u := { s.put i ((s.tasks i).setStage .finish) with links := listDelInit s.links i }) L mem
    (ringsDrop L.rings mem) (fun j other => putOther s other _) rfl rfl rfl
  have counted : s.destroy i k = _ :=
    finishInfoCount { s.put i ((s.tasks i).setStage .finish) with links := listDelInit s.links i } i k
  rw [counted]
  exact freeListed deleted (by simp [Task.setStage])

theorem bodyListed (L : Listed s lists none) (l : Loop) (mem : i ∈ lists l.list) (io : Io) :
    ∃ after,Listed (s.body i io l) after none ∧ (l.ends = true ∧ after = dropItem lists l.list i ∨
      l.ends = false ∧ Moved lists l.list i after) := by
  cases l with
  | connect =>
    obtain ⟨after,listed,moved⟩ := connectListed L mem io
    exact ⟨after,listed,.inr ⟨rfl,moved⟩⟩
  | writeTimeout =>
    obtain ⟨after,listed,moved⟩ := timeoutListed L mem (by decide) "Write timeout 27 secs."
    exact ⟨after,listed,.inr ⟨rfl,moved⟩⟩
  | readTimeout =>
    obtain ⟨after,listed,moved⟩ := timeoutListed L mem (by decide) "Read timeout 27 secs."
    exact ⟨after,listed,.inr ⟨rfl,moved⟩⟩
  | finish => exact ⟨_,finishedListed L mem,.inl ⟨rfl,rfl⟩⟩
  | read readSet writeSet =>
    simp only [Sched.body]
    split
    · obtain ⟨after,listed,moved⟩ := readListed (wakeListed L i) mem io
      exact ⟨after,listed,.inr ⟨rfl,moved⟩⟩
    · exact ⟨lists,L,.inr ⟨rfl,.stay⟩⟩
  | write writeSet =>
    simp only [Sched.body]
    split
    · obtain ⟨after,listed,moved⟩ := writeListed (wakeListed L i) mem io
      exact ⟨after,listed,.inr ⟨rfl,moved⟩⟩
    · exact ⟨lists,L,.inr ⟨rfl,.stay⟩⟩
  | destroy k => exact ⟨_,destroyListed L mem,.inl ⟨rfl,rfl⟩⟩

end moves

def Loop.swept (lists : ListName → List TaskId) : Loop → Prop
  | .destroy .requesting => lists .initial = []
  | .destroy .downloading => lists .initial = [] ∧ lists .requesting = []
  | .destroy .finished => lists .initial = [] ∧ lists .requesting = [] ∧ lists .downloading = []
  | _ => True

structure Walking (lists : ListName → List TaskId) (l : Loop) (pos : Node ListName TaskId)
    (before rest : List TaskId) : Prop where
  items : lists l.list = before ++ rest
  pos : pos = first l.list rest
  clear : l = .destroy l.list → before = []
  swept : l.swept lists

def Pc.on (lists : ListName → List TaskId) : Pc → Prop
  | .top | .ctrl _ _ => True
  | .loop l pos => ∃ before rest,Walking lists l pos before rest
  | .done => ∀ k,lists k = []

def Scheduled (s : Sched) : Prop := ∃ lists,Listed s lists none ∧ s.pc.on lists

section steps
variable {s t : Sched} {lists : ListName → List TaskId}

theorem walkingMem (on : s.pc.on lists) {l : Loop} {i : TaskId} (pc : s.pc = .loop l (.item i)) : i ∈ lists l.list := by
  rw [pc] at on
  obtain ⟨before,rest,W⟩ := on
  cases rest with
  | nil => cases W.pos
  | cons j rest =>
    cases W.pos
    rw [W.items]
    simp

theorem startScheduled (files : Bytes → Option Bytes) (ctrlSockfd : Int) : Scheduled (Sched.start files ctrlSockfd) := by
  refine ⟨fun _ => [],⟨emptyRings,fun _ => rfl,nofun,nofun,fun i on => ?_,fun _ _ _ => rfl,rfl⟩,trivial⟩
  rcases on with ⟨k,mem⟩ | held
  · cases mem
  · cases held

theorem enterScheduled (L : Listed s lists none) {l : Loop} (swept : l.swept lists) : Scheduled (s.enter l) :=
  ⟨lists,⟨L.rings,L.count,L.stages,L.away,L.live,L.gone,L.right⟩,[],lists l.list,rfl,ringsEnter L.rings l.list,
    fun _ => rfl,swept⟩

inductive Left (lists : ListName → List TaskId) (l : Loop) : Prop
  | enter (next : Loop) (same : ∀ s : Sched,s.leave l = s.enter next) (swept : next.swept lists)
  | top (same : ∀ s : Sched,s.leave l = { s with pc := .top })
  | done (same : ∀ s : Sched,s.leave l = { s with pc := .done }) (empty : ∀ k,lists k = [])

theorem walkingEnd {l : Loop} {before rest : List TaskId} (W : Walking lists l (.head l.list) before rest) : rest = [] := by
  have pos := W.pos
  cases rest with
  | nil => rfl
  | cons i rest => cases pos

theorem leaveCases {l : Loop} {before rest : List TaskId} (W : Walking lists l (.head l.list) before rest) : Left lists l := by
  have empty (destroys : l = .destroy l.list) : lists l.list = [] := by
    rw [W.items,W.clear destroys,walkingEnd W]
    rfl
  have swept := W.swept
  cases l with
  | connect => exact .enter .writeTimeout (fun _ => rfl) trivial
  | writeTimeout => exact .enter .readTimeout (fun _ => rfl) trivial
  | readTimeout => exact .enter .finish (fun _ => rfl) trivial
  | finish => exact .top fun _ => rfl
  | read _ writeSet => exact .enter (.write writeSet) (fun _ => rfl) trivial
  | write _ => exact .top fun _ => rfl
  | destroy k =>
    cases k with
    | initial => exact .enter (.destroy .requesting) (fun _ => rfl) (empty rfl)
    | requesting => exact .enter (.destroy .downloading) (fun _ => rfl) ⟨swept,empty rfl⟩
    | downloading => exact .enter (.destroy .finished) (fun _ => rfl) ⟨swept.1,swept.2,empty rfl⟩
    | finished =>
      refine .done (fun _ => rfl) fun k => ?_
      cases k with
      | initial => exact swept.1
      | requesting => exact swept.2.1
      | downloading => exact swept.2.2
      | finished => exact empty rfl

theorem leaveScheduled (L : Listed s lists none) {l : Loop} {before rest : List TaskId}
    (W : Walking lists l (.head l.list) before rest) : Scheduled (s.leave l) := by
  cases leaveCases W with
  | enter next same swept =>
    rw [same]
    exact enterScheduled L swept
  | top same =>
    rw [same]
    exact ⟨lists,⟨L.rings,L.count,L.stages,L.away,L.live,L.gone,L.right⟩,trivial⟩
  | done same empty =>
    rw [same]
    exact ⟨lists,⟨L.rings,L.count,L.stages,L.away,L.live,L.gone,L.right⟩,empty⟩

theorem initFilefdStage (info : Info) (found : Option Bytes) (fd : Int) :
    (httpDlInitFilefd info found fd).1.stage = info.stage := by
  unfold httpDlInitFilefd
  dsimp only
  split <;> rfl

inductive Creation (s : Sched) (r : Request) : Sched × Bool → Prop
  | refused : Creation s r (s,false)
  | wasted (failed : r.fd < 0) : Creation s r (s.waste r.task,false)
  | made {target : Target} {info : Info} {file : File} (fd : 0 ≤ r.fd)
      (url : urlTarget (cstr (r.text.take (httpDlUrlLen - 1))) = some target)
      (opened : httpDlInitFilefd (newInfo target) (s.found r target) r.fd = (info,file,.ok)) :
      Creation s r (s.opened r target info file,true)

theorem createCases (s : Sched) (r : Request) : Creation s r (httpDlCreateInfo s r) := by
  unfold httpDlCreateInfo
  split
  · exact .refused
  · rename_i target url
    split
    · unfold Sched.createInfo
      split
      · rename_i info file opened
        refine .made ?_ url opened
        unfold httpDlInitFilefd at opened
        dsimp only at opened
        split at opened
        · cases opened
        · omega
      · rename_i bad
        refine .wasted (Decidable.byContradiction fun fd => ?_)
        have fine : (httpDlInitFilefd (newInfo target) (s.found r target) r.fd).2.2 = .ok := by
          unfold httpDlInitFilefd
          dsimp only
          rw [if_neg fd]
        exact bad _ _ (Prod.ext rfl (Prod.ext rfl fine))
    · exact .refused

theorem createListed (L : Listed s lists none) {r : Request} (fresh : s.created r.task = false) :
    Listed (httpDlCreateInfo s r).1 lists (if (httpDlCreateInfo s r).2 then some r.task else none) ∧
      ((httpDlCreateInfo s r).2 = true → ((httpDlCreateInfo s r).1.tasks r.task).info.stage = .init) := by
  have other {j : TaskId} {k : ListName} (mem : j ∈ lists k) : j ≠ r.task := by
    rintro rfl
    rw [(L.live r.task (.inl ⟨k,mem⟩)).1] at fresh
    cases fresh
  have unfreed : s.freed r.task = 0 := by
    rw [L.gone r.task (fun k mem => other mem rfl) nofun,fresh]
    rfl
  have cases_ := createCases s r
  generalize httpDlCreateInfo s r = made at cases_ ⊢
  cases cases_ with
  | refused => exact ⟨L,nofun⟩
  | wasted failed =>
    refine ⟨⟨L.rings,L.count,L.stages,nofun,fun j on => ?_,fun j off _ => ?_,L.right⟩,nofun⟩
    · rcases on with ⟨k,mem⟩ | held
      · dsimp only [Sched.waste]
        rw [Function.update_of_ne (other mem),Function.update_of_ne (other mem)]
        exact L.live j (.inl ⟨k,mem⟩)
      · cases held
    · dsimp only [Sched.waste]
      rcases Decidable.em (j = r.task) with rfl | old
      · rw [Function.update_self,Function.update_self,unfreed]
        rfl
      · rw [Function.update_of_ne old,Function.update_of_ne old]
        exact L.gone j off nofun
  | @made target info file fd url opened =>
    refine ⟨⟨L.rings,L.count,fun k j mem => ?_,fun j held k mem => ?_,fun j on => ?_,fun j off out => ?_,L.right⟩,
      fun _ => ?_⟩
    · dsimp only [Sched.opened]
      rw [Function.update_of_ne (other mem)]
      exact L.stages k j mem
    · cases Option.some.inj held
      exact other mem rfl
    · dsimp only [Sched.opened]
      rcases on with ⟨k,mem⟩ | held
      · rw [Function.update_of_ne (other mem)]
        exact L.live j (.inl ⟨k,mem⟩)
      · cases Option.some.inj held
        rw [Function.update_self]
        exact ⟨rfl,unfreed⟩
    · dsimp only [Sched.opened]
      have old : j ≠ r.task := fun same => out (by rw [same]; rfl)
      rw [Function.update_of_ne old]
      exact L.gone j off nofun
    · dsimp only [Sched.opened]
      rw [Function.update_self]
      have stage := initFilefdStage (newInfo target) (s.found r target) r.fd
      rw [opened] at stage
      exact stage

theorem ctrlListed (L : Listed s lists none) {r : Request} (fresh : s.created r.task = false) :
    Listed (httpDlHandleCtrlEvent s (some r))
      (if (httpDlCreateInfo s r).2 then addItem lists .initial r.task else lists) none := by
  obtain ⟨created,stage⟩ := createListed L fresh
  unfold httpDlHandleCtrlEvent
  dsimp only
  split
  · rename_i made
    rw [if_pos made] at created
    unfold httpDlAddInfoToInitialList
    rw [if_neg (not_not_intro (stage made))]
    exact addListed (k := .initial) created (beq_iff_eq.mpr (stage made))
  · rename_i made
    rw [if_neg made] at created
    exact created

theorem bodyWalking (L : Listed s lists none) {l : Loop} {i : TaskId} {before rest : List TaskId}
    (W : Walking lists l (.item i) before (i :: rest)) {after : ListName → List TaskId}
    (effect : l.ends = true ∧ after = dropItem lists l.list i ∨ l.ends = false ∧ Moved lists l.list i after) :
    ∃ before,Walking after l (s.links.next (.item i)) before rest := by
  have pos : s.links.next (.item i) = first l.list rest := ringsBehind L.rings W.items
  have dropped : dropItem lists l.list i l.list = before ++ rest := by
    rw [eraseSplit L.rings W.items,Function.update_self]
  rcases effect with ⟨_,rfl⟩ | ⟨going,moved⟩
  · refine ⟨before,dropped,pos,W.clear,?_⟩
    have old := W.swept
    cases l with
    | destroy k =>
      have same (j : ListName) (other : j ≠ k) : dropItem lists k i j = lists j := Function.update_of_ne other _ _
      cases k with
      | initial => trivial
      | requesting => exact (same .initial (by decide)).trans old
      | downloading => exact ⟨(same .initial (by decide)).trans old.1,(same .requesting (by decide)).trans old.2⟩
      | finished =>
        exact ⟨(same .initial (by decide)).trans old.1,(same .requesting (by decide)).trans old.2.1,
          (same .downloading (by decide)).trans old.2.2⟩
    | _ => trivial
  · have loose : l ≠ .destroy l.list := by
      intro destroys
      rw [destroys] at going
      cases going
    have swept (any : ListName → List TaskId) : l.swept any := by
      cases l with
      | destroy k => cases going
      | _ => trivial
    cases moved with
    | stay =>
      refine ⟨before ++ [i],?_,pos,fun destroys => absurd destroys loose,swept _⟩
      rw [W.items,List.append_assoc]
      rfl
    | @move m other =>
      refine ⟨before,?_,pos,W.clear,swept _⟩
      rw [addItem,Function.update_of_ne other.symm]
      exact dropped

theorem bodyScheduled (L : Listed s lists none) {l : Loop} {i : TaskId} {before rest : List TaskId}
    (W : Walking lists l (.item i) before (i :: rest)) (io : Io) :
    Scheduled { s.body i io l with pc := .loop l (s.links.next (.item i)) } := by
  have mem : i ∈ lists l.list := by
    rw [W.items]
    simp
  obtain ⟨after,listed,effect⟩ := bodyListed L l mem io
  obtain ⟨before,walking⟩ := bodyWalking L W effect
  exact ⟨after,⟨listed.rings,listed.count,listed.stages,listed.away,listed.live,listed.gone,listed.right⟩,before,rest,walking⟩

theorem stepScheduled {e : Event} (inv : Scheduled s) (next : s.step e = some t) : Scheduled t := by
  obtain ⟨lists,L,on⟩ := inv
  have quit : Scheduled s.quit :=
    enterScheduled (s := { s with fds := s.fds.erase s.ctrlSockfd })
      ⟨L.rings,L.count,L.stages,L.away,L.live,L.gone,L.right⟩ trivial
  cases stepIff.mp next with
  | exit top => exact quit
  | timeout top => exact enterScheduled L trivial
  | eintr top => exact ⟨lists,L,on⟩
  | error top => exact quit
  | ready top => exact ⟨lists,⟨L.rings,L.count,L.stages,L.away,L.live,L.gone,L.right⟩,trivial⟩
  | quiet pc unset => exact enterScheduled L trivial
  | @ctrl _ _ datagram pc set fresh =>
    cases datagram with
    | none => exact enterScheduled L trivial
    | some r => exact enterScheduled (ctrlListed L (fresh r rfl)) trivial
  | @body l i io pc possible =>
    rw [pc] at on
    obtain ⟨before,rest,W⟩ := on
    cases rest with
    | nil => cases W.pos
    | cons j rest =>
      cases W.pos
      exact bodyScheduled L W io
  | leave pc =>
    rw [pc] at on
    obtain ⟨before,rest,W⟩ := on
    exact leaveScheduled L W

structure Orderly (s : Sched) (lists : ListName → List TaskId) : Prop where
  rings : Rings s.links lists
  count : ∀ k,s.count k = (lists k).length
  placed : ∀ i,s.created i = true → (∃ k,i ∈ lists k ∧ ∀ m,i ∈ lists m → m = k) ∧ s.freed i = 0 ∨
    (∀ k,i ∉ lists k) ∧ s.freed i = 1
  unborn : ∀ i,s.created i = false → (∀ k,i ∉ lists k) ∧ s.freed i = 0
  stages : ∀ k,∀ i ∈ lists k,k.holds (s.tasks i).info.stage = true
  right : s.wrongStage = false
  track : ∀ l pos,s.pc = .loop l pos → pos = .head l.list ∨ ∃ i ∈ lists l.list,pos = .item i
  done : s.pc = .done → ∀ i,s.created i = true → s.freed i = 1

theorem orderly (inv : Scheduled s) : ∃ lists,Orderly s lists := by
  obtain ⟨lists,L,on⟩ := inv
  have placed (i : TaskId) (created : s.created i = true) :
      (∃ k,i ∈ lists k ∧ ∀ m,i ∈ lists m → m = k) ∧ s.freed i = 0 ∨ (∀ k,i ∉ lists k) ∧ s.freed i = 1 := by
    rcases Classical.em (∃ k,i ∈ lists k) with ⟨k,mem⟩ | off
    · exact .inl ⟨⟨k,mem,fun m other => L.rings.apart other mem⟩,(L.live i (.inl ⟨k,mem⟩)).2⟩
    · rw [not_exists] at off
      exact .inr ⟨off,by rw [L.gone i off nofun,created]; rfl⟩
  refine ⟨lists,L.rings,L.count,placed,fun i unborn => ?_,L.stages,L.right,fun l pos pc => ?_,fun pc i created => ?_⟩
  · have off (k : ListName) : i ∉ lists k := by
      intro mem
      rw [(L.live i (.inl ⟨k,mem⟩)).1] at unborn
      cases unborn
    exact ⟨off,by rw [L.gone i off nofun,unborn]; rfl⟩
  · rw [pc] at on
    obtain ⟨before,rest,W⟩ := on
    cases rest with
    | nil => exact .inl W.pos
    | cons i rest => exact .inr ⟨i,by rw [W.items]; simp,W.pos⟩
  · rw [pc] at on
    rcases placed i created with ⟨⟨k,mem,_⟩,_⟩ | ⟨_,once⟩
    · rw [on k] at mem
      cases mem
    · exact once

end steps

/-- Along every run of the scheduler each task is on exactly one list until it is freed once, the counts
are the lengths, list and stage agree, and no branch for a wrong stage is taken. -/
theorem schedulerOrderly (files : Bytes → Option Bytes) (ctrlSockfd : Int) (es : List Event) :
    Along Sched.step (fun _ _ t => ∃ lists,Orderly t lists) (Sched.start files ctrlSockfd) es :=
  @alongInvariant _ _ Sched.step Scheduled (fun _ _ _ => True) _
    (fun inv _ next => ⟨stepScheduled inv next,orderly (stepScheduled inv next)⟩) _ _ (startScheduled files ctrlSockfd)
    (alongTrue _ es)

end MipsElfExec.Download

import MipsElfExec.Download.Intake

/-! The body of a response under writes that fail: every byte received is in the file or waits in the buffer, in
order and once. The number of bytes written is kept in a `long`. -/
namespace MipsElfExec.Download
open CString Transducer Run

def Info.unread (info : Info) : Bytes := (info.buf.drop info.bufData).take (info.bufTail - info.bufData)

structure Intake.Content (s : Intake) : Prop where
  stage : s.info.stage = .recvContent
  order : s.info.bufData ≤ s.info.bufTail
  tail : s.info.bufTail ≤ httpDlReadbufLen
  size : httpDlReadbufLen < s.info.buf.length
  fd : 0 ≤ s.info.filefd
  plain : s.file.AtEnd

section
variable {s t : Intake} {e : Call}

theorem contentOpen (C : s.Content) : s.Open s.info.unread := by
  refine ⟨?_,.inr (.inr C.stage),C.fd,C.plain⟩
  have order := C.order
  have tail := C.tail
  have size := C.size
  obtain ⟨guard,back,rest⟩ := List.exists_cons_of_length_pos (l := s.info.buf.drop s.info.bufTail)
    (by rw [List.length_drop]; omega)
  have front : (s.info.buf.take s.info.bufData).length = s.info.bufData := List.length_take_of_le (by omega)
  have middle : s.info.unread.length = s.info.bufTail - s.info.bufData := by
    simp only [Info.unread,List.length_take,List.length_drop]
    omega
  refine ⟨s.info.buf.take s.info.bufData,guard,back,?_,front,by omega,tail,size⟩
  have behind : s.info.buf.drop s.info.bufTail = (s.info.buf.drop s.info.bufData).drop (s.info.bufTail - s.info.bufData) := by
    rw [List.drop_drop,Nat.add_sub_cancel' order]
  rw [← rest,behind,List.append_assoc,Info.unread,List.take_append_drop,List.take_append_drop]

theorem openContent {pending : Bytes} (O : s.Open pending) (stage : s.info.stage = .recvContent) :
    s.Content ∧ s.info.unread = pending := by
  obtain ⟨data,order,_⟩ := windowData O.window
  obtain ⟨front,guard,back,same,start,stop,room,size⟩ := O.window
  exact ⟨⟨stage,order,room,size,O.fd,O.plain⟩,data⟩

structure Stored (s t : Intake) (e : Call) (more : Bytes) : Prop where
  written : t.file.content = s.file.content ++ more
  whole : more ++ t.info.unread = s.info.unread ++ e.arrival.received
  count : ∀ n,s.info.recvLen = long n → t.info.recvLen = long (n + more.length)
  content : t.Content

theorem storedSame (C : s.Content) (info : t.info = s.info) (file : t.file = s.file) (none_ : e.arrival.received = []) :
    Stored s t e [] := by
  refine ⟨by rw [file,List.append_nil],by rw [info,none_,List.append_nil]; rfl,fun n same => ?_,?_⟩
  · rw [info,same]
    exact congrArg long (Int.add_zero n).symm
  · exact ⟨info ▸ C.stage,info ▸ C.order,info ▸ C.tail,info ▸ C.size,info ▸ C.fd,file ▸ C.plain⟩

theorem takeLength {n : Nat} {bs : Bytes} (bound : n ≤ bs.length) : (bs.take n).length = n := List.length_take_of_le bound

theorem bodyStep (C : s.Content) (next : s.step e = some t) : ∃ more,Stored s t e more := by
  obtain ⟨again,possible,rfl⟩ := takeStep next
  have O := contentOpen C
  have ends (quiet : e.arrival.read = .data []) (none_ : e.arrival.received = []) :
      ∃ more,Stored s ⟨(s.next e).1,(s.next e).2.1,(s.next e).2.2⟩ e more := by
    have flushed := flushTaken O.window C.stage C.fd C.plain e.results
    have same : s.next e = ((httpDlFlushBufData s.info s.file e.results).1,
        (httpDlFlushBufData s.info s.file e.results).2.1,.ok) := by
      unfold Intake.next
      rw [quiet]
      rfl
    rw [same]
    have stage := (congrArg Info.stage flushed.bare).trans C.stage
    have fd : 0 ≤ (httpDlFlushBufData s.info s.file e.results).1.filefd :=
      (congrArg Info.filefd flushed.bare).symm ▸ C.fd
    obtain ⟨content,unread⟩ := @openContent ⟨(httpDlFlushBufData s.info s.file e.results).1,
      (httpDlFlushBufData s.info s.file e.results).2.1,.ok⟩ _ ⟨flushed.window,.inr (.inr stage),fd,flushed.still⟩ stage
    refine ⟨_,flushed.written,?_,fun n same => ?_,content⟩
    · rw [unread,none_,List.take_append_drop,List.append_nil]
    · rw [takeLength (takenBound _ _)]
      exact flushed.count n same
  obtain ⟨arrival,results⟩ := e
  cases arrival with
  | error => exact ⟨[],storedSame C rfl rfl rfl⟩
  | closed => exact ends rfl rfl
  | full => exact ends rfl rfl
  | bytes b rest =>
    have fits : rest.length < s.info.freeSpace := of_decide_eq_true possible
    obtain ⟨called,_⟩ := readCalled O fits results
    have drained := drainContent (s := ⟨s.info.bare,[]⟩) C.stage (s.info.unread ++ b :: rest)
    rw [List.nil_append] at drained
    rw [drained] at called
    have going : s.info.stage ≠ .finish := fun bad => Stage.noConfusion (C.stage.symm.trans bad)
    obtain ⟨_,bare,window,written,plain,_⟩ := called.going going
    have stage := (congrArg Info.stage bare).trans C.stage
    have fd : 0 ≤ (s.next ⟨.bytes b rest,results⟩).1.filefd := (congrArg Info.filefd bare).symm ▸ C.fd
    obtain ⟨content,unread⟩ := @openContent ⟨(s.next ⟨.bytes b rest,results⟩).1,(s.next ⟨.bytes b rest,results⟩).2.1,
      (s.next ⟨.bytes b rest,results⟩).2.2⟩ _ ⟨window,.inr (.inr stage),fd,plain⟩ stage
    refine ⟨_,written,?_,fun n same => ?_,content⟩
    · rw [unread,List.append_nil]
      exact List.take_append_drop _ _
    · rw [takeLength (takenBound _ _)]
      exact called.count n same

theorem bodyRun {es : List Call} (C : s.Content) (path : run Intake.step s es = some t) {n : Int}
    (count : s.info.recvLen = long n) : ∃ appended,t.file.content = s.file.content ++ appended ∧
      appended ++ t.info.unread = s.info.unread ++ received es ∧ t.info.recvLen = long (n + appended.length) := by
  induction es generalizing s n with
  | nil =>
    cases path
    refine ⟨[],(List.append_nil _).symm,(List.append_nil _).symm,?_⟩
    rw [count]
    exact congrArg long (Int.add_zero n).symm
  | cons e es ih =>
    obtain ⟨u,next,rest⟩ := Option.bind_eq_some_iff.mp path
    obtain ⟨more,stored⟩ := bodyStep C next
    obtain ⟨appended,written,whole,last⟩ := ih stored.content rest (stored.count n count)
    refine ⟨more ++ appended,?_,?_,?_⟩
    · rw [written,stored.written,List.append_assoc]
    · rw [List.append_assoc,whole,← List.append_assoc,stored.whole,List.append_assoc]
      rfl
    · rw [last,List.length_append,Int.natCast_add,Int.add_assoc]

theorem bytewiseRun (n : Nat) (C : s.Content) (again : s.ret = .again) (empty : s.info.unread = [])
    (space : 0 < s.info.freeSpace) : ∃ t,run Intake.step s (List.replicate n ⟨.bytes 65 [],[]⟩) = some t ∧
      t.Content ∧ t.info.unread = [] := by
  induction n generalizing s with
  | zero => exact ⟨s,rfl,C,empty⟩
  | succ n ih =>
    have next : s.step ⟨.bytes 65 [],[]⟩ = some ⟨(s.next ⟨.bytes 65 [],[]⟩).1,(s.next ⟨.bytes 65 [],[]⟩).2.1,
        (s.next ⟨.bytes 65 [],[]⟩).2.2⟩ := if_pos ⟨again,decide_eq_true space⟩
    obtain ⟨called,_⟩ := @readCalled _ _ (contentOpen C) 65 [] space []
    rw [empty,drainContent (s := ⟨s.info.bare,[]⟩) C.stage] at called
    have going : s.info.stage ≠ .finish := fun bad => Stage.noConfusion (C.stage.symm.trans bad)
    obtain ⟨ret,_,window,_,_,room⟩ := called.going going
    obtain ⟨more,stored⟩ := bodyStep C next
    have none_ : (s.next ⟨.bytes 65 [],[]⟩).1.unread = [] := (windowData window).1
    obtain ⟨t,path,content,unread⟩ := ih stored.content ret none_ (room (by decide : 0 < httpDlReadbufLen))
    refine ⟨t,?_,content,unread⟩
    rw [List.replicate_succ,run,next]
    exact path

end

/-- Whatever the writes do, the bytes appended to the file and the bytes in the buffer are together the bytes received,
and recv_len is the number of bytes appended, as a `long`. -/
theorem bodyConserved {info : Info} {file : File} {before : Int} {es : List Call} {t : Intake}
    (content : (Intake.start info file).Content) (count : info.recvLen = long before)
    (path : run Intake.step (Intake.start info file) es = some t) :
    ∃ appended,t.file.content = file.content ++ appended ∧ appended ++ t.info.unread = info.unread ++ received es ∧
      t.info.recvLen = long (before + appended.length) := bodyRun content path count

def contentInfo : Info := { freshInfo with stage := .recvContent,statusCode := 200 }

theorem contentInfoReady : (Intake.start contentInfo ⟨[],false,0⟩).Content := by
  refine ⟨rfl,Nat.le_refl 0,Nat.zero_le _,?_,by decide,.inr rfl⟩
  exact freshInfoFresh.size

theorem bodyConservedPartly : ∃ t appended,
    run Intake.step (Intake.start contentInfo ⟨[],false,0⟩)
      [⟨.bytes 97 (ascii "bc"),[.eintr,.wrote 1,.fail]⟩,⟨.bytes 100 [],[.wrote 2]⟩] = some t ∧
    t.file.content = appended ∧ appended ++ t.info.unread = ascii "abcd" ∧ t.info.recvLen = long appended.length := by
  have ran : (run Intake.step (Intake.start contentInfo ⟨[],false,0⟩)
      [⟨.bytes 97 (ascii "bc"),[.eintr,.wrote 1,.fail]⟩,⟨.bytes 100 [],[.wrote 2]⟩]).isSome = true := by
    decide
  obtain ⟨t,path⟩ := Option.isSome_iff_exists.mp ran
  obtain ⟨appended,written,whole,count⟩ := @bodyConserved _ _ 0 _ _ contentInfoReady rfl path
  rw [Int.zero_add] at count
  exact ⟨t,appended,path,written,whole,count⟩

theorem bytewiseCount (n : Nat) : ∃ t,
    run Intake.step (Intake.start contentInfo ⟨[],false,0⟩) (List.replicate n ⟨.bytes 65 [],[]⟩) = some t ∧
    t.file.content.length = n ∧ t.info.recvLen = long n := by
  obtain ⟨t,path,_,unread⟩ := bytewiseRun n contentInfoReady rfl rfl (by decide)
  obtain ⟨appended,written,whole,count⟩ := bodyRun contentInfoReady path (n := 0) rfl
  have size : appended.length = n := by
    have both := congrArg List.length whole
    have none_ : (Intake.start contentInfo ⟨[],false,0⟩).info.unread = [] := rfl
    rw [unread,none_,List.append_nil,List.nil_append,received,List.length_flatMap,List.map_replicate,List.sum_replicate_nat] at both
    rw [both]
    exact Nat.mul_one n
  refine ⟨t,path,?_,?_⟩
  · rw [written]
    exact size
  · rw [count,size,Int.zero_add]

theorem recvLenWraps : ∃ t,
    run Intake.step (Intake.start contentInfo ⟨[],false,0⟩) (List.replicate 2147483648 ⟨.bytes 65 [],[]⟩) = some t ∧
    t.file.content.length = 2147483648 ∧ t.info.recvLen = -2147483648 := by
  obtain ⟨t,path,size,count⟩ := bytewiseCount 2147483648
  exact ⟨t,path,size,count.trans (by decide)⟩

end MipsElfExec.Download

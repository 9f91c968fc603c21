import MipsElfExec.Download.Progress
import MipsElfExec.Download.Receive

/-! The buffered client follows the unbuffered one: after each read the record
without its buffer, the pending bytes and the file are those of the drained stream. -/
namespace MipsElfExec.Download
open CString Transducer

def Info.Window (info : Info) (pending : Bytes) : Prop :=
  ∃ front guard back, info.buf = front ++ pending ++ guard :: back ∧ front.length = info.bufData ∧
    front.length + pending.length = info.bufTail ∧ info.bufTail ≤ httpDlReadbufLen ∧
    httpDlReadbufLen < info.buf.length

def Info.Ended (info : Info) (pending : Bytes) : Prop :=
  info.Window pending ∧ ∃ front back, info.buf = front ++ pending ++ 0 :: back ∧ front.length = info.bufData

theorem windowSize {info : Info} {pending} (w : info.Window pending) : pending.length ≤ httpDlReadbufLen := by
  obtain ⟨front,guard,back,same,start,stop,room,size⟩ := w
  omega

theorem windowData {info : Info} {pending} (w : info.Window pending) :
    (info.buf.drop info.bufData).take (info.bufTail - info.bufData) = pending ∧ info.bufData ≤ info.bufTail ∧
    info.bufTail - info.bufData = pending.length := by
  obtain ⟨front,guard,back,same,start,stop,room,size⟩ := w
  have len : info.bufTail - info.bufData = pending.length := by omega
  refine ⟨?_,by omega,len⟩
  rw [len,same,← start]
  simp

theorem windowTerminate {info : Info} {pending} (w : info.Window pending) : info.terminate.Ended pending := by
  obtain ⟨front,guard,back,same,start,stop,room,size⟩ := w
  have set : info.terminate.buf = front ++ pending ++ 0 :: back := by
    simp only [Info.terminate,same]
    rw [← stop,← List.length_append,List.set_append_right _ _ (Nat.le_refl _)]
    simp
  refine ⟨⟨front,0,back,set,start,stop,room,?_⟩,front,back,set,start⟩
  simpa [Info.terminate] using size

theorem endedText {info : Info} {pending} (e : info.Ended pending) : info.text = cstr pending := by
  obtain ⟨_,front,back,same,start⟩ := e
  unfold Info.text
  rw [same,← start,List.append_assoc,List.drop_left]
  exact cstrAppendNul _ _

theorem windowAdvance {info : Info} {pending} (w : info.Window pending) {n} (fits : n ≤ pending.length) :
    ({ info with bufData := info.bufData + n } : Info).Window (pending.drop n) := by
  obtain ⟨front,guard,back,same,start,stop,room,size⟩ := w
  refine ⟨front ++ pending.take n,guard,back,?_,?_,?_,room,size⟩
  · simpa using same
  · simp only [List.length_append,List.length_take]
    omega
  · simp only [List.length_append,List.length_take,List.length_drop]
    omega

theorem endedAdvance {info : Info} {pending} (e : info.Ended pending) {n} (fits : n ≤ pending.length) :
    ({ info with bufData := info.bufData + n } : Info).Ended (pending.drop n) := by
  refine ⟨windowAdvance e.1 fits,?_⟩
  obtain ⟨_,front,back,same,start⟩ := e
  refine ⟨front ++ pending.take n,back,?_,?_⟩
  · simpa using same
  · simp only [List.length_append,List.length_take]
    omega

theorem windowReceive {info : Info} {pending bytes} (w : info.Window pending)
    (fits : bytes.length ≤ info.freeSpace) : (info.receive bytes).Window (pending ++ bytes) := by
  obtain ⟨front,guard,back,same,start,stop,room,size⟩ := w
  unfold Info.freeSpace at fits
  have tail : info.buf.drop (info.bufTail + bytes.length) = (guard :: back).drop bytes.length := by
    rw [same,← List.drop_drop,← stop,← List.length_append,List.drop_left]
  have long : bytes.length < (guard :: back).length := by
    rw [same] at size
    simp only [List.length_append] at size
    omega
  obtain ⟨g,more,rest⟩ := List.exists_cons_of_length_pos (l := (guard :: back).drop bytes.length)
    (by rw [List.length_drop]; omega)
  have head : info.buf.take info.bufTail = front ++ pending := by
    rw [same,← stop,← List.length_append,List.take_left]
  refine ⟨front,g,more,?_,start,?_,?_,?_⟩
  · simp only [Info.receive,head,tail,rest,List.append_assoc]
  · simp only [Info.receive,List.length_append]
    omega
  · simp only [Info.receive]
    omega
  · have count := congrArg List.length rest
    simp only [Info.receive,head,tail,rest,List.length_append]
    rw [same] at size
    simp only [List.length_append,List.length_drop,List.length_cons] at size count ⊢
    omega

theorem moveLength (buf : Bytes) (dst src n : Nat) : (moveData buf dst src n).length = buf.length := by
  induction n generalizing buf dst src with
  | zero => rfl
  | succ n ih => rw [moveData,ih,List.length_set]

theorem moveGet (buf : Bytes) (dst src n : Nat) (down : dst ≤ src) (inside : src + n ≤ buf.length) (i : Nat) :
    (moveData buf dst src n)[i]? = if dst ≤ i ∧ i < dst + n then buf[i + (src - dst)]? else buf[i]? := by
  induction n generalizing buf dst src with
  | zero =>
    rw [moveData,if_neg (by omega)]
  | succ n ih =>
    rw [moveData,ih _ _ _ (by omega) (by rw [List.length_set]; omega)]
    have shift : src + 1 - (dst + 1) = src - dst := by omega
    have here : src < buf.length := by omega
    have put : dst < buf.length := by omega
    rw [shift]
    rcases Nat.lt_trichotomy i dst with low | same | high
    · rw [if_neg (by omega),if_neg (by omega),List.getElem?_set_ne (by omega)]
    · subst same
      rw [if_neg (by omega),if_pos (by omega),List.getElem?_set_self put]
      simp [show i + (src - i) = src by omega,here]
    · rw [List.getElem?_set_ne (by omega),List.getElem?_set_ne (by omega)]
      simp only [show (dst + 1 ≤ i ∧ i < dst + 1 + n) ↔ (dst ≤ i ∧ i < dst + (n + 1)) by omega]

theorem windowCompact {info : Info} {pending} (w : info.Window pending) :
    info.compact.Window pending ∧ info.compact.freeSpace = httpDlReadbufLen - pending.length := by
  obtain ⟨data,order,len⟩ := windowData w
  have short := windowSize w
  obtain ⟨front,guard,back,same,start,stop,room,size⟩ := w
  have size' : (moveData info.buf 0 info.bufData pending.length).length = info.buf.length := moveLength _ _ _ _
  have head : (moveData info.buf 0 info.bufData pending.length).take pending.length = pending := by
    apply List.ext_getElem?
    intro i
    rw [List.getElem?_take,moveGet _ _ _ _ (Nat.zero_le _) (by omega)]
    split
    · rename_i low
      rw [if_pos (by omega),same]
      simp [← start,List.getElem?_append_right,List.getElem?_append_left low]
    · rename_i high
      rw [List.getElem?_eq_none (by omega)]
  have split_ := List.take_append_drop pending.length (moveData info.buf 0 info.bufData pending.length)
  rw [head] at split_
  obtain ⟨g,more,rest⟩ := List.exists_cons_of_length_pos
    (l := (moveData info.buf 0 info.bufData pending.length).drop pending.length)
    (by rw [List.length_drop]; omega)
  unfold Info.compact Info.freeSpace
  rw [len]
  refine ⟨⟨[],g,more,?_,rfl,?_,short,?_⟩,rfl⟩
  · simp only [List.nil_append,← rest]
    exact split_.symm
  · simp
  · simpa [size'] using size

theorem windowAdjust {info : Info} {pending} (w : info.Window pending) :
    (httpDlAdjustInfoBuf info).Window pending ∧
    (pending.length < httpDlReadbufLen → 0 < (httpDlAdjustInfoBuf info).freeSpace) := by
  obtain ⟨data,order,len⟩ := windowData w
  obtain ⟨compacted,space⟩ := windowCompact w
  unfold httpDlAdjustInfoBuf
  split
  · rename_i same
    have empty : pending = [] := List.length_eq_zero_iff.mp (by omega)
    subst empty
    obtain ⟨front,guard,back,same,start,stop,room,size⟩ := w
    obtain ⟨g,more,rest⟩ := List.exists_cons_of_length_pos (l := info.buf.drop httpDlReadbufLen)
      (by rw [List.length_drop]; omega)
    refine ⟨⟨[],0,List.replicate (httpDlReadbufLen - 1) 0 ++ info.buf.drop httpDlReadbufLen,?_,rfl,rfl,?_,?_⟩,?_⟩
    · rfl
    · exact Nat.zero_le _
    · have count := congrArg List.length rest
      simp only [List.length_append,List.length_replicate,rest,List.length_cons]
      omega
    · exact fun _ => by simp [Info.freeSpace,httpDlReadbufLen]
  · dsimp only
    split
    · exact ⟨compacted,fun short => by omega⟩
    · rename_i wide
      split
      · exact ⟨compacted,fun short => by omega⟩
      · exact ⟨w,fun _ => by simp only [httpDlReadbufLen] at wide; omega⟩

theorem headerLineBare (info : Info) (header : Bytes) :
    (httpDlHeaderLine info header).bare = httpDlHeaderLine info.bare header := by
  unfold httpDlHeaderLine Info.takeContentLen Info.takeRange Info.bare
  split
  · dsimp only
    split <;> rfl
  · dsimp only
    split <;> rfl
  · split
    · rfl
    · rfl
    · split
      · rfl
      · rfl
      · split
        · dsimp only
          split <;> rfl
        · rfl
        · rfl

theorem endedStep {info : Info} {pending} (e : info.Ended pending) : strstr info.text crlf = lineEnd pending := by
  rw [endedText e,lineEnd,List.take_of_length_le (windowSize e.1)]
  unfold strstr
  rw [cstrOfNoNul (cstrNoNul pending)]

theorem textLine {pending : Bytes} {n} (found : lineEnd pending = some n) :
    ∃ rest, cstr (pending.take httpDlReadbufLen) = pending.take (n + 2) ++ rest ∧
      (13 : Byte) ∈ pending.take (n + 2) ∧ (pending.take (n + 2)).length = n + 2 := by
  obtain ⟨inside,fits⟩ := lineEndBound found
  have cut := searchFound found
  obtain ⟨tail,whole⟩ := cstrPrefix (pending.take httpDlReadbufLen)
  have bound := searchBound found
  have same : (cstr (pending.take httpDlReadbufLen)).take (n + 2) = pending.take (n + 2) := by
    have both := congrArg (List.take (n + 2)) whole
    rw [List.take_append_of_le_length (by simpa [crlf] using bound),List.take_take,Nat.min_eq_left fits] at both
    exact both
  refine ⟨_,by rw [← same]; exact (List.take_append_drop (n + 2) _).symm,?_,List.length_take_of_le inside⟩
  rw [← same]
  have ends : (cstr (pending.take httpDlReadbufLen)).take (n + crlf.length) = _ := searchTake found
  rw [show n + 2 = n + crlf.length from rfl,ends]
  simp [crlf]

theorem headerRun (fuel : Nat) {info : Info} {pending} (e : info.Ended pending) (stage : info.stage = .parseHeader)
    (enough : pending.length < fuel) (body : Bytes) :
    ∃ left,(httpDlHeaderLines fuel info).1.Ended left ∧
      Progress.machine.drain ⟨info.bare,body⟩ pending =
        Progress.machine.drain ⟨(httpDlHeaderLines fuel info).1.bare,body⟩ left ∧
      ((httpDlHeaderLines fuel info).2 = .again ∧ (httpDlHeaderLines fuel info).1.stage = .recvContent ∨
       (httpDlHeaderLines fuel info).2 = .ok ∧ (httpDlHeaderLines fuel info).1.stage = .parseHeader ∧
        Progress.step ⟨(httpDlHeaderLines fuel info).1.bare,body⟩ left = none) := by
  induction fuel generalizing info pending with
  | zero => omega
  | succ fuel ih =>
    have bare : info.bare.stage = .parseHeader := stage
    rw [httpDlHeaderLines,endedStep e]
    cases found : lineEnd pending with
    | none => exact ⟨pending,e,rfl,Or.inr ⟨rfl,stage,by simp [Progress.step,bare,found]⟩⟩
    | some n =>
      obtain ⟨inside,fits⟩ := lineEndBound found
      obtain ⟨rest,text,cr,size⟩ := textLine found
      rw [List.take_of_length_le (windowSize e.1)] at text
      cases n with
      | zero =>
        refine ⟨pending.drop 2,endedAdvance e inside,?_,Or.inl ⟨rfl,rfl⟩⟩
        refine drainStep Progress.machine ?_
        simp only [Progress.machine,Progress.step,bare,found]
        rfl
      | succ n =>
        have step : Progress.machine.step ⟨info.bare,body⟩ pending =
            some (⟨httpDlHeaderLine info.bare (pending.take (n + 1 + 2)),body⟩,pending.drop (n + 1 + 2)) := by
          simp [Progress.machine,Progress.step,Info.header,bare,found]
        have line : httpDlHeaderLine info info.text = httpDlHeaderLine info (pending.take (n + 1 + 2)) := by
          rw [endedText e,text,lineStops info rest cr]
        rw [drainStep Progress.machine step,← headerLineBare]
        dsimp only
        rw [line]
        obtain ⟨contentLen,totalLen,frame⟩ := headerLineFrame info (pending.take (n + 1 + 2))
        rw [frame]
        have shorter : (pending.drop (n + 1 + 2)).length < fuel := by
          rw [List.length_drop]
          omega
        have moved : ({ info with contentLen := contentLen,totalLen := totalLen } : Info).Ended pending := e
        have next := endedAdvance moved inside
        exact ih next stage shorter

theorem statusRet (text : Bytes) (n : Nat) :
    (parseStatusLine text n).ret = .ok ∧ (parseStatusLine text n).advance = n + 2 ∨
    (parseStatusLine text n).ret = .http := by
  unfold parseStatusLine parseStatusCode StatusLine.reject
  dsimp only
  repeat' split
  all_goals first | exact Or.inr rfl | exact Or.inl ⟨rfl,rfl⟩

theorem statusRun {info : Info} {pending} (w : info.Window pending) (stage : info.stage = .parseStatusLine)
    (body : Bytes) :
    (httpDlParseStatusLine info).2 = .http ∧ (∃ left,Progress.machine.drain ⟨info.bare,body⟩ pending =
      (⟨{ (httpDlParseStatusLine info).1.bare with stage := .finish },body⟩,left)) ∨
    ∃ left,(httpDlParseStatusLine info).1.Ended left ∧
      Progress.machine.drain ⟨info.bare,body⟩ pending =
        Progress.machine.drain ⟨(httpDlParseStatusLine info).1.bare,body⟩ left ∧
      ((httpDlParseStatusLine info).2 = .again ∧ (httpDlParseStatusLine info).1.stage = .parseHeader ∨
       (httpDlParseStatusLine info).2 = .ok ∧ (httpDlParseStatusLine info).1.stage ≠ .finish ∧
        Progress.step ⟨(httpDlParseStatusLine info).1.bare,body⟩ left = none) := by
  have bare : info.bare.stage = .parseStatusLine := stage
  have e := windowTerminate w
  unfold httpDlParseStatusLine
  rw [if_neg (not_not_intro stage)]
  dsimp only
  rw [endedStep e]
  cases found : lineEnd pending with
  | none =>
    refine Or.inr ⟨pending,e,rfl,Or.inr ⟨rfl,?_,?_⟩⟩
    · exact fun finished => Stage.noConfusion (stage.symm.trans finished)
    · change Progress.step ⟨info.bare,body⟩ pending = none
      simp [Progress.step,bare,found]
  | some n =>
    obtain ⟨inside,fits⟩ := lineEndBound found
    obtain ⟨rest,text,cr,size⟩ := textLine found
    rw [List.take_of_length_le (windowSize w)] at text
    have line : parseStatusLine info.terminate.text n = parseStatusLine (pending.take (n + 2)) n := by
      rw [endedText e,text,statusStops cr size]
    have step : Progress.machine.step ⟨info.bare,body⟩ pending =
        some (⟨info.bare.judge (parseStatusLine (pending.take (n + 2)) n),body⟩,pending.drop (n + 2)) := by
      simp [Progress.machine,Progress.step,bare,found]
    dsimp only
    rw [line,drainStep Progress.machine step]
    have ret := statusRet (pending.take (n + 2)) n
    generalize parseStatusLine (pending.take (n + 2)) n = line at ret ⊢
    rcases ret with ⟨ok,whole⟩ | bad
    · right
      rw [if_neg (not_not_intro ok)]
      have same : info.bare.judge line =
          (info.terminate.takeStatus line).bare := by
        simp [Info.judge,Info.takeStatus,Info.bare,Info.terminate,ok]
      have moved : (info.terminate.takeStatus line).Ended
          (pending.drop (n + 2)) := by
        have next := endedAdvance e inside
        rw [← whole] at next ⊢
        exact next
      refine ⟨pending.drop (n + 2),moved,by rw [same],?_⟩
      have header : (info.terminate.takeStatus line).stage = .parseHeader := by
        simp [Info.takeStatus,ok]
      dsimp only
      split
      · exact Or.inl ⟨rfl,header⟩
      · rename_i done
        refine Or.inr ⟨rfl,by simp [header],?_⟩
        have empty : pending.drop (n + 2) = [] := by
          have sizes := (windowData moved.1).2
          exact List.length_eq_zero_iff.mp (by omega)
        rw [empty]
        simp [Progress.step,Info.bare,header,lineEnd,strstr,cstr,search,crlf]
    · left
      have failed : line.ret ≠ .ok := by simp [bad]
      rw [if_pos failed]
      refine ⟨bad,pending.drop (n + 2),?_⟩
      have idle : Progress.machine.step ⟨info.bare.judge line,body⟩
          (pending.drop (n + 2)) = none := by
        simp [Progress.machine,Progress.step,Info.judge,bad]
      rw [drainIdle Progress.machine idle]
      simp [Info.judge,Info.takeStatus,Info.bare,Info.terminate,bad]

def taken : Nat → List WriteResult → Nat
  | n,[] => n
  | n,.eintr :: results => taken n results
  | _,.fail :: _ => 0
  | n,.wrote m :: results => if min m n = 0 then 0 else min m n + taken (n - min m n) results

theorem takenBound (n : Nat) (results : List WriteResult) : taken n results ≤ n := by
  induction results generalizing n with
  | nil => exact Nat.le_refl n
  | cons r results ih =>
    cases r with
    | eintr => exact ih n
    | fail => exact Nat.zero_le n
    | wrote m =>
      have rest := ih (n - min m n)
      simp only [taken]
      split
      · exact Nat.zero_le n
      · omega

theorem takenAll {results : List WriteResult} (ok : ∀ r ∈ results,r.Succeeds) (n : Nat) : taken n results = n := by
  induction results generalizing n with
  | nil => rfl
  | cons r results ih =>
    have rest : ∀ r ∈ results,r.Succeeds := fun r mem => ok r (List.mem_cons_of_mem _ mem)
    have head := ok r List.mem_cons_self
    cases r with
    | fail => exact head.elim
    | eintr => exact ih rest n
    | wrote m =>
      have positive : 0 < m := head
      simp only [taken,ih rest]
      split <;> omega

theorem writeTaken {file : File} (plain : file.AtEnd) (data : Bytes) (results : List WriteResult) :
    (httpDlWrite file data results).1.content = file.content ++ data.take (taken data.length results) ∧
    (httpDlWrite file data results).1.AtEnd ∧ (httpDlWrite file data results).2 = taken data.length results := by
  induction results generalizing file data with
  | nil =>
    obtain ⟨written,still⟩ := writeAtEnd plain data
    exact ⟨by rw [taken,List.take_length]; exact written,still,rfl⟩
  | cons r results ih =>
    cases r with
    | eintr => exact ih plain data
    | fail => exact ⟨by simp [httpDlWrite,taken],plain,rfl⟩
    | wrote m =>
      simp only [httpDlWrite,taken]
      split
      · exact ⟨by simp,plain,rfl⟩
      · obtain ⟨first,still⟩ := writeAtEnd plain (data.take (min m data.length))
        obtain ⟨rest,still,count⟩ := ih still (data.drop (min m data.length))
        rw [List.length_drop] at rest count
        refine ⟨?_,still,?_⟩
        · rw [rest,first,List.append_assoc,← List.take_add]
        · rw [count,Nat.add_comm]

structure Info.Ordered (info : Info) : Prop where
  data : info.bufData ≤ info.bufTail
  tail : info.bufTail ≤ httpDlReadbufLen
  nul : info.bufTail < info.buf.length

theorem windowOrdered {info : Info} {pending} (w : info.Window pending) : info.Ordered := by
  obtain ⟨front,guard,back,same,start,stop,room,size⟩ := w
  exact ⟨by omega,room,by omega⟩

def httpDlPasses : Nat → Info → File → List WriteResult → List Info
  | 0,_,_,_ => []
  | passes + 1,info,file,results =>
    let done := httpDlStage info file results
    info :: match done.2.2 with
      | .again => httpDlPasses passes done.1 done.2.1 results
      | _ => []

structure Called (r : Info × File × Ret) (info : Info) (file : File) (d : Progress × Bytes) (results : List WriteResult) :
    Prop where
  failed : d.1.info.stage = .finish → r.2.2 = .ok ∧ { r.1.bare with stage := .finish } = d.1.info ∧
    r.2.1 = file ∧ d.1.body = [] ∧ r.1.Ordered ∧ r.1.stage = .parseStatusLine
  going : d.1.info.stage ≠ .finish → r.2.2 = .again ∧ r.1.bare = d.1.info ∧
    r.1.Window (d.1.body.drop (taken d.1.body.length results) ++ d.2) ∧
    r.2.1.content = file.content ++ d.1.body.take (taken d.1.body.length results) ∧ r.2.1.AtEnd ∧
    ((d.1.body.drop (taken d.1.body.length results) ++ d.2).length < httpDlReadbufLen → 0 < r.1.freeSpace)
  count : ∀ n,info.recvLen = long n → r.1.recvLen = long (n + taken d.1.body.length results)

theorem adjustBare (info : Info) : (httpDlAdjustInfoBuf info).bare = info.bare ∧
    (httpDlAdjustInfoBuf info).recvLen = info.recvLen := by
  unfold httpDlAdjustInfoBuf
  dsimp only
  repeat' split
  all_goals exact ⟨rfl,rfl⟩

theorem longAdd (m n : Int) : long (long m + n) = long (m + n) := Int.bmod_add_bmod

theorem takenNone (results : List WriteResult) : taken 0 results = 0 := Nat.le_zero.mp (takenBound 0 results)

theorem windowRewind {info : Info} {pending} (w : info.Window pending) (recvLen : Int) :
    ({ info with recvLen := recvLen } : Info).rewind.Window [] := by
  obtain ⟨front,guard,back,same,start,stop,room,size⟩ := w
  obtain ⟨g,more,rest⟩ := List.exists_cons_of_length_pos (l := info.buf) (by omega)
  exact ⟨[],g,more,rest,rfl,rfl,Nat.zero_le _,size⟩

structure Flushed (r : Info × File × Ret) (info : Info) (file : File) (pending : Bytes) (results : List WriteResult) : Prop where
  bare : r.1.bare = info.bare
  window : r.1.Window (pending.drop (taken pending.length results))
  written : r.2.1.content = file.content ++ pending.take (taken pending.length results)
  still : r.2.1.AtEnd
  count : ∀ n,info.recvLen = long n → r.1.recvLen = long (n + taken pending.length results)

theorem flushTaken {info : Info} {file : File} {pending} (w : info.Window pending) (content : info.stage = .recvContent)
    (fd : 0 ≤ info.filefd) (plain : file.AtEnd) (results : List WriteResult) :
    Flushed (httpDlFlushBufData info file results) info file pending results := by
  obtain ⟨data,order,len⟩ := windowData w
  unfold httpDlFlushBufData
  rw [if_neg (not_not_intro content),if_neg (Nat.not_lt.mpr order),data]
  dsimp only
  split
  · rename_i empty
    subst empty
    refine ⟨rfl,?_,?_,plain,fun n same => ?_⟩
    · rw [List.drop_nil]
      exact windowRewind w info.recvLen
    · rw [List.take_nil,List.append_nil]
    · rw [List.length_nil,takenNone]
      exact same.trans (congrArg long (Int.add_zero n).symm)
  · obtain ⟨written,still,all⟩ := writeTaken plain pending results
    have bound := takenBound pending.length results
    have count (n : Int) (same : info.recvLen = long n) : long (info.recvLen + taken pending.length results) =
        long (n + taken pending.length results) := by
      rw [same,longAdd]
    rw [if_neg (Int.not_lt.mpr fd),all]
    split
    · exact ⟨rfl,windowAdvance w bound,written,still,count⟩
    · rename_i whole
      have same : taken pending.length results = pending.length := by omega
      refine ⟨rfl,?_,written,still,count⟩
      rw [same,List.drop_length]
      exact windowRewind w _

theorem calledKept {info : Info} {file : File} {left} (w : info.Window left) (parsing : info.stage ≠ .finish)
    (plain : file.AtEnd) (results : List WriteResult) :
    Called (httpDlAdjustInfoBuf info,file,.again) info file (⟨info.bare,[]⟩,left) results := by
  obtain ⟨window,space⟩ := windowAdjust w
  obtain ⟨bare,recvLen⟩ := adjustBare info
  have none_ : taken ([] : Bytes).length results = 0 := takenNone results
  refine ⟨fun bad => (parsing bad).elim,fun _ => ?_,fun n same => ?_⟩
  · dsimp only
    rw [none_]
    exact ⟨rfl,bare,window,(List.append_nil _).symm,plain,space⟩
  · dsimp only
    rw [recvLen,none_,same]
    exact congrArg long (Int.add_zero n).symm

theorem contentCalled {info : Info} {file : File} {pending} (passes : Nat) (w : info.Window pending)
    (content : info.stage = .recvContent) (fd : 0 ≤ info.filefd) (plain : file.AtEnd) (results : List WriteResult) :
    Called (httpDlStages (passes + 1) info file results) info file
      (Progress.machine.drain ⟨info.bare,[]⟩ pending) results ∧
    ∀ u ∈ httpDlPasses (passes + 1) info file results,u.Ordered := by
  rw [drainContent (s := ⟨info.bare,[]⟩) content,List.nil_append,httpDlStages,httpDlPasses]
  dsimp only
  rcases Nat.decEq info.bufData info.bufTail with more | same
  · have stage : httpDlStage info file results =
        ((httpDlFlushBufData info file results).1,(httpDlFlushBufData info file results).2.1,.ok) := by
      simp [httpDlStage,content,httpDlRecvContent,more]
    have flushed := flushTaken w content fd plain results
    obtain ⟨window,space⟩ := windowAdjust flushed.window
    obtain ⟨bare,recvLen⟩ := adjustBare (httpDlFlushBufData info file results).1
    rw [stage]
    refine ⟨⟨fun bad => Stage.noConfusion (content.symm.trans bad),fun _ => ?_,fun n same => ?_⟩,?_⟩
    · dsimp only
      rw [List.append_nil]
      exact ⟨rfl,bare.trans flushed.bare,window,flushed.written,flushed.still,space⟩
    · exact recvLen.trans (flushed.count n same)
    · rintro u (_ | ⟨_,⟨⟩⟩)
      exact windowOrdered w
  · have stage : httpDlStage info file results = (info,file,.ok) := by
      simp [httpDlStage,content,httpDlRecvContent,same]
    have empty : pending = [] := by
      have sizes := (windowData w).2
      exact List.length_eq_zero_iff.mp (by omega)
    subst empty
    rw [stage]
    refine ⟨calledKept w (fun bad => Stage.noConfusion (content.symm.trans bad)) plain results,?_⟩
    rintro u (_ | ⟨_,⟨⟩⟩)
    exact windowOrdered w

theorem headerLinesCount (fuel : Nat) (info : Info) : (httpDlHeaderLines fuel info).1.recvLen = info.recvLen := by
  induction fuel generalizing info with
  | zero => rfl
  | succ fuel ih =>
    unfold httpDlHeaderLines
    split
    · rfl
    · rfl
    · obtain ⟨contentLen,totalLen,frame⟩ := headerLineFrame info info.text
      dsimp only
      rw [frame,ih]

theorem headerCalled {info : Info} {file : File} {pending} (passes : Nat) (w : info.Window pending)
    (header : info.stage = .parseHeader) (fd : 0 ≤ info.filefd) (plain : file.AtEnd) (results : List WriteResult) :
    Called (httpDlStages (passes + 2) info file results) info file
      (Progress.machine.drain ⟨info.bare,[]⟩ pending) results ∧
    ∀ u ∈ httpDlPasses (passes + 2) info file results,u.Ordered := by
  have e := windowTerminate w
  have enough : pending.length < info.terminate.buf.length := by
    obtain ⟨front,guard,back,same,_⟩ := e.1
    have count := congrArg List.length same
    simp only [List.length_append,List.length_cons] at count
    omega
  have run := headerRun info.terminate.buf.length e header enough []
  have bare : info.terminate.bare = info.bare := rfl
  rw [bare] at run
  have stages : httpDlStage info file results =
      ((httpDlHeaderLines info.terminate.buf.length info.terminate).1,file,
       (httpDlHeaderLines info.terminate.buf.length info.terminate).2) := by
    simp [httpDlStage,header,httpDlParseHeader]
  rw [httpDlStages,httpDlPasses,stages]
  obtain ⟨left,e',same,next⟩ := run
  have fd' : (httpDlHeaderLines info.terminate.buf.length info.terminate).1.filefd = info.filefd := by
    have kept := drainKeeps ⟨info.bare,[]⟩ pending
    rw [same,drainKeeps] at kept
    exact kept
  have recvLen : (httpDlHeaderLines info.terminate.buf.length info.terminate).1.recvLen = info.recvLen :=
    headerLinesCount _ _
  rw [same]
  generalize httpDlHeaderLines info.terminate.buf.length info.terminate = r at e' next fd' recvLen ⊢
  rcases next with ⟨again,content⟩ | ⟨done,still,idle⟩
  · obtain ⟨called,ordered⟩ := contentCalled passes e'.1 content (by omega) plain results
    simp only [again]
    refine ⟨⟨called.failed,called.going,fun n same => called.count n (recvLen.trans same)⟩,?_⟩
    rintro u (_ | ⟨_,mem⟩)
    · exact windowOrdered w
    · exact ordered u mem
  · simp only [done]
    rw [drainIdle Progress.machine idle]
    have called := calledKept e'.1 (by simp [still]) plain results
    refine ⟨⟨called.failed,called.going,fun n same => called.count n (recvLen.trans same)⟩,?_⟩
    rintro u (_ | ⟨_,⟨⟩⟩)
    exact windowOrdered w

theorem codeAdvance {p : Bytes} {start n size : Nat} (inside : start + p.length ≤ size) (whole : n + 2 ≤ size) :
    (parseStatusCode p start n).advance ≤ size := by
  unfold parseStatusCode
  split
  · rename_i a b c p
    simp only [List.length_cons] at inside
    split
    · dsimp only
      split
      · exact (by omega : start + 3 ≤ size)
      · rename_i space
        cases p with
        | nil => simp at space
        | cons d p =>
          simp only [List.length_cons] at inside
          split
          · exact (by omega : start + 4 ≤ size)
          · exact whole
    · exact (by omega : start ≤ size)
  · exact (by omega : start ≤ size)

theorem statusAdvance {text : Bytes} {n : Nat} (found : search crlf text = some n) :
    (parseStatusLine text n).advance ≤ text.length := by
  have whole : n + 2 ≤ text.length := searchBound found
  unfold parseStatusLine
  split
  · exact Nat.zero_le _
  · rename_i http
    rw [Decidable.not_not] at http
    have five := (List.isPrefixOf_iff_prefix.mp http).length_le
    dsimp only
    split
    · exact five
    · split
      · exact Nat.sub_le _ _
      · have minor : (((text.drop 5).dropWhile isdigit).drop 1) <:+ text :=
          (List.drop_suffix _ _).trans ((List.dropWhile_suffix _).trans (List.drop_suffix _ _))
        have code : (((((text.drop 5).dropWhile isdigit).drop 1).dropWhile isdigit).drop 1) <:+ text :=
          (List.drop_suffix _ _).trans ((List.dropWhile_suffix _).trans minor)
        exact codeAdvance (Nat.sub_add_cancel code.length_le).le whole

theorem statusOrdered {info : Info} {pending} (w : info.Window pending) (stage : info.stage = .parseStatusLine) :
    (httpDlParseStatusLine info).1.Ordered ∧ (httpDlParseStatusLine info).1.recvLen = info.recvLen ∧
    ((httpDlParseStatusLine info).2 = .http → (httpDlParseStatusLine info).1.stage = .parseStatusLine) := by
  have e := windowTerminate w
  have ordered := windowOrdered e.1
  unfold httpDlParseStatusLine
  rw [if_neg (not_not_intro stage)]
  dsimp only
  split
  · exact ⟨ordered,rfl,fun _ => stage⟩
  · rename_i n found
    have line : search crlf info.terminate.text = some n := by
      have text : cstr info.terminate.text = info.terminate.text := cstrOfNoNul (cstrNoNul _)
      rw [strstr,text] at found
      exact found
    have advance := statusAdvance line
    have inside : info.terminate.text.length ≤ pending.length := endedText e ▸ (cstrPrefix pending).length_le
    have len := (windowData e.1).2.2
    have next : (info.terminate.takeStatus (parseStatusLine info.terminate.text n)).Ordered := by
      refine ⟨?_,ordered.tail,ordered.nul⟩
      have order := ordered.data
      change info.terminate.bufData + (parseStatusLine info.terminate.text n).advance ≤ info.terminate.bufTail
      omega
    split
    · rename_i bad
      refine ⟨next,rfl,fun _ => ?_⟩
      change (if (parseStatusLine info.terminate.text n).ret = .ok then Stage.parseHeader else info.stage) = _
      rw [if_neg bad,stage]
    · refine ⟨next,rfl,fun http => ?_⟩
      dsimp only at http
      split at http <;> cases http

theorem statusCalled {info : Info} {file : File} {pending} (passes : Nat) (w : info.Window pending)
    (status : info.stage = .parseStatusLine) (fd : 0 ≤ info.filefd) (plain : file.AtEnd) (results : List WriteResult) :
    Called (httpDlStages (passes + 3) info file results) info file
      (Progress.machine.drain ⟨info.bare,[]⟩ pending) results ∧
    ∀ u ∈ httpDlPasses (passes + 3) info file results,u.Ordered := by
  have run := statusRun w status []
  have stages : httpDlStage info file results =
      ((httpDlParseStatusLine info).1,file,(httpDlParseStatusLine info).2) := by
    simp [httpDlStage,status]
  obtain ⟨last,recvLen,stays⟩ := statusOrdered w status
  rw [httpDlStages,httpDlPasses,stages]
  rcases run with ⟨bad,left,same⟩ | ⟨left,e',same,next⟩
  · rw [same]
    simp only [bad]
    have none_ : taken ([] : Bytes).length results = 0 := takenNone results
    refine ⟨⟨fun _ => ⟨rfl,rfl,rfl,rfl,last,stays bad⟩,fun going => (going rfl).elim,fun n same => ?_⟩,?_⟩
    · dsimp only
      rw [recvLen,none_,same]
      exact congrArg long (Int.add_zero n).symm
    · rintro u (_ | ⟨_,⟨⟩⟩)
      exact windowOrdered w
  · have fd' : (httpDlParseStatusLine info).1.filefd = info.filefd := by
      have kept := drainKeeps ⟨info.bare,[]⟩ pending
      rw [same,drainKeeps] at kept
      exact kept
    rw [same]
    generalize httpDlParseStatusLine info = r at e' next fd' recvLen ⊢
    rcases next with ⟨again,header⟩ | ⟨done,still,idle⟩
    · obtain ⟨called,ordered⟩ := headerCalled passes e'.1 header (by omega) plain results
      simp only [again]
      refine ⟨⟨called.failed,called.going,fun n same => called.count n (recvLen.trans same)⟩,?_⟩
      rintro u (_ | ⟨_,mem⟩)
      · exact windowOrdered w
      · exact ordered u mem
    · simp only [done]
      rw [drainIdle Progress.machine idle]
      have called := calledKept e'.1 still plain results
      refine ⟨⟨called.failed,called.going,fun n same => called.count n (recvLen.trans same)⟩,?_⟩
      rintro u (_ | ⟨_,⟨⟩⟩)
      exact windowOrdered w

theorem recvCalled {info : Info} {file : File} {pending bytes} (w : info.Window pending) (reading : info.Reading)
    (fd : 0 ≤ info.filefd) (plain : file.AtEnd) (results : List WriteResult) (some_ : bytes ≠ [])
    (fits : bytes.length ≤ info.freeSpace) :
    Called (httpDlRecvResp info file (.data bytes) results) info file
      (Progress.machine.drain ⟨info.bare,[]⟩ (pending ++ bytes)) results ∧
    ∀ u ∈ httpDlPasses 3 (info.receive bytes) file results,u.Ordered := by
  have window := windowReceive w fits
  have bare : (info.receive bytes).bare = info.bare := rfl
  have resp : httpDlRecvResp info file (.data bytes) results = httpDlStages 3 (info.receive bytes) file results := by
    cases bytes with
    | nil => exact (some_ rfl).elim
    | cons b bytes => rfl
  rw [resp,← bare]
  have frame {r : Info × File × Ret} {d : Progress × Bytes} (called : Called r (info.receive bytes) file d results) :
      Called r info file d results := ⟨called.failed,called.going,called.count⟩
  rcases reading with status | header | content
  · exact (statusCalled 0 window status fd plain results).imp_left frame
  · exact (headerCalled 1 window header fd plain results).imp_left frame
  · exact (contentCalled 2 window content fd plain results).imp_left frame

structure Handled (r : Info × File × Ret) (file : File) (d : Progress × Bytes) : Prop where
  failed : d.1.info.stage = .finish → r.2.2 = .ok ∧ { r.1.bare with stage := .finish } = d.1.info ∧
    r.2.1 = file ∧ d.1.body = []
  going : d.1.info.stage ≠ .finish → r.2.2 = .again ∧ r.1.bare = d.1.info ∧ r.1.Window d.2 ∧
    r.2.1.content = file.content ++ d.1.body ∧ r.2.1.AtEnd ∧
    (d.2.length < httpDlReadbufLen → 0 < r.1.freeSpace)

theorem recvHandled {info : Info} {file : File} {pending bytes results} (w : info.Window pending)
    (reading : info.Reading) (fd : 0 ≤ info.filefd) (plain : file.AtEnd)
    (ok : ∀ r ∈ results,WriteResult.Succeeds r) (some_ : bytes ≠ []) (fits : bytes.length ≤ info.freeSpace) :
    Handled (httpDlRecvResp info file (.data bytes) results) file
      (Progress.machine.drain ⟨info.bare,[]⟩ (pending ++ bytes)) := by
  obtain ⟨called,_⟩ := recvCalled w reading fd plain results some_ fits
  refine ⟨fun bad => ?_,fun going => ?_⟩
  · obtain ⟨ret,same,kept,empty,_⟩ := called.failed bad
    exact ⟨ret,same,kept,empty⟩
  · have next := called.going going
    rw [takenAll ok,List.drop_length,List.take_length,List.nil_append] at next
    exact next

end MipsElfExec.Download

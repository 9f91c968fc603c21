import MipsElfExec.Download.Session

/-! A download resumed behind the bytes already on disk. The length sent in the
Range header, the status code and the Content-Range of the reply never meet the
file: whatever body arrives is appended. -/
namespace MipsElfExec.Download
open CString Transducer

def decimal (n : Nat) : Bytes := ascii (toString n)

structure Reply where
  major : Bytes
  minor : Bytes
  reason : Bytes
  fields : List Bytes
  first : Option Nat
  deriving DecidableEq, Repr

def contentRange (first total : Nat) : Bytes :=
  ascii "Content-Range: bytes " ++ decimal first ++ ascii "-" ++ decimal (total - 1) ++ ascii "/" ++ decimal total

def Reply.code (reply : Reply) : Bytes := if reply.first = none then ascii "200" else ascii "206"

def Reply.statusLine (reply : Reply) : Bytes :=
  ascii "HTTP/" ++ reply.major ++ 46 :: reply.minor ++ 32 :: reply.code ++ 32 :: reply.reason

def Reply.body (reply : Reply) (resource : Bytes) : Bytes :=
  match reply.first with
  | none => resource
  | some first => resource.drop first

def headLines : List Bytes → Bytes → Bytes
  | [],body => crlf ++ body
  | line :: lines,body => line ++ crlf ++ headLines lines body

def Reply.stream (reply : Reply) (resource : Bytes) : Bytes :=
  headLines (reply.statusLine :: reply.fields) (reply.body resource)

def Clean (line : Bytes) : Prop := (13 : Byte) ∉ line ∧ (10 : Byte) ∉ line ∧ (0 : Byte) ∉ line
instance (line) : Decidable (Clean line) := by unfold Clean; infer_instance

structure Reply.Allowed (reply : Reply) (resource : Bytes) : Prop where
  major : reply.major ≠ [] ∧ ∀ b ∈ reply.major,isdigit b
  minor : reply.minor ≠ [] ∧ ∀ b ∈ reply.minor,isdigit b
  reason : Clean reply.reason
  fields : ∀ line ∈ reply.fields,line ≠ [] ∧ Clean line
  range : ∀ first,reply.first = some first →
    first < resource.length ∧ contentRange first resource.length ∈ reply.fields

def Fits (line : Bytes) : Prop := line.length + 2 ≤ httpDlReadbufLen
instance (line) : Decidable (Fits line) := by unfold Fits; infer_instance

def Reply.Fits (reply : Reply) : Prop := ∀ line ∈ reply.statusLine :: reply.fields,Download.Fits line
instance (reply : Reply) : Decidable reply.Fits := by unfold Reply.Fits; infer_instance

theorem searchNoLf {s : Bytes} (clean : (10 : Byte) ∉ s) : search crlf s = none := by
  cases found : search crlf s with
  | none => rfl
  | some n =>
    have inside : (10 : Byte) ∈ s := by
      rw [searchFound found]
      simp [crlf]
    exact (clean inside).elim

theorem searchLine {line : Bytes} (clean : (13 : Byte) ∉ line) (rest : Bytes) :
    search crlf (line ++ crlf ++ rest) = some line.length := by
  induction line with
  | nil => simp [search,crlf,List.isPrefixOf]
  | cons b line ih =>
    have head : (13 : Byte) ≠ b := fun same => clean (by simp [same])
    have tail := ih (fun mem => clean (List.mem_cons_of_mem _ mem))
    simp only [List.cons_append,search]
    rw [if_neg (by simp [crlf,List.isPrefixOf,head]),tail]
    rfl

theorem lineEndFirst {line : Bytes} (nul : (0 : Byte) ∉ line) (ends : search crlf (line ++ crlf) = some line.length)
    (rest : Bytes) : lineEnd (line ++ crlf ++ rest) = if Fits line then some line.length else none := by
  have size : (line ++ crlf).length = line.length + 2 := by simp [crlf]
  have nul : (0 : Byte) ∉ line ++ crlf := by
    rw [List.mem_append]
    rintro (bad | bad)
    · exact nul bad
    · exact absurd bad (by decide)
  unfold lineEnd strstr
  split
  · rename_i fits
    have whole : (line ++ crlf).length ≤ httpDlReadbufLen := size ▸ fits
    rw [List.take_append,List.take_of_length_le whole]
    obtain ⟨more,same⟩ := cstrAppendPrefix (line ++ crlf) (rest.take (httpDlReadbufLen - (line ++ crlf).length))
    rw [cstrOfNoNul nul] at same
    rw [← same]
    exact searchExtends ends more
  · rename_i wide
    have long : httpDlReadbufLen < (line ++ crlf).length := by
      rw [size]
      exact Nat.lt_of_not_le wide
    rw [List.take_append_of_le_length long.le,cstrOfNoNul fun mem => nul (List.mem_of_mem_take mem)]
    cases found : search crlf ((line ++ crlf).take httpDlReadbufLen) with
    | none => rfl
    | some n =>
      have bound : n + 2 ≤ _ := searchBound found
      have first := searchExtends found ((line ++ crlf).drop httpDlReadbufLen)
      rw [List.take_append_drop,ends] at first
      rw [List.length_take,← Option.some.inj first] at bound
      omega

theorem lineEndClean {line : Bytes} (clean : Clean line) (rest : Bytes) :
    lineEnd (line ++ crlf ++ rest) = if Fits line then some line.length else none := by
  have ends := searchLine clean.1 []
  rw [List.append_nil] at ends
  exact lineEndFirst clean.2.2 ends rest

section head
variable {info : Info} {line rest : Bytes} {lines : List Bytes}

theorem statusStep (status : info.stage = .parseStatusLine)
    (found : lineEnd (line ++ crlf ++ headLines lines rest) = some line.length) :
    Progress.machine.step ⟨info,[]⟩ (headLines (line :: lines) rest) =
      some (⟨info.judge (parseStatusLine (line ++ crlf) line.length),[]⟩,headLines lines rest) := by
  have size : line.length + 2 = (line ++ crlf).length := by simp [crlf]
  simp only [Progress.machine,Progress.step,status,headLines,found,Option.map_some]
  rw [size,List.take_left,List.drop_left]

theorem fieldStep (header : info.stage = .parseHeader) (some_ : line ≠ [])
    (found : lineEnd (line ++ crlf ++ headLines lines rest) = some line.length) :
    Progress.machine.step ⟨info,[]⟩ (headLines (line :: lines) rest) =
      some (⟨httpDlHeaderLine info (line ++ crlf),[]⟩,headLines lines rest) := by
  have size : line.length + 2 = (line ++ crlf).length := by simp [crlf]
  have positive : line.length ≠ 0 := fun zero => some_ (List.length_eq_zero_iff.mp zero)
  simp only [Progress.machine,Progress.step,header,headLines,found,Option.map_some,Info.header,if_neg positive]
  rw [size,List.take_left,List.drop_left]

theorem lineStuck (parsing : info.stage = .parseStatusLine ∨ info.stage = .parseHeader)
    (wide : lineEnd (line ++ crlf ++ headLines lines rest) = none) :
    Progress.machine.drain ⟨info,[]⟩ (headLines (line :: lines) rest) = (⟨info,[]⟩,headLines (line :: lines) rest) := by
  refine drainIdle Progress.machine ?_
  rcases parsing with stage | stage <;> simp only [Progress.machine,Progress.step,stage,headLines,wide,Option.map_none]

theorem fieldStill (header : info.stage = .parseHeader) (line : Bytes) : (httpDlHeaderLine info line).stage = .parseHeader := by
  obtain ⟨contentLen,totalLen,frame⟩ := headerLineFrame info line
  rw [frame]
  exact header

theorem headEnds (header : info.stage = .parseHeader) (rest : Bytes) :
    Progress.machine.drain ⟨info,[]⟩ (headLines [] rest) = (⟨{ info with stage := .recvContent },rest⟩,[]) := by
  have found : lineEnd (headLines [] rest) = some 0 := by
    have empty := lineEndClean (by decide : Clean []) rest
    rw [if_pos (by decide)] at empty
    exact empty
  have step : Progress.machine.step ⟨info,[]⟩ (headLines [] rest) = some (⟨{ info with stage := .recvContent },[]⟩,rest) := by
    simp only [Progress.machine,Progress.step,header,found,Option.map_some]
    rfl
  rw [drainStep Progress.machine step,drainContent rfl,List.nil_append]

end head

theorem dropDigits {digits : Bytes} (all : ∀ b ∈ digits,isdigit b = true) {c : Byte} (stop : isdigit c = false)
    (rest : Bytes) : (digits ++ c :: rest).dropWhile isdigit = c :: rest := by
  induction digits with
  | nil => simp [stop]
  | cons b digits ih =>
    rw [List.cons_append,List.dropWhile_cons,if_pos (all b List.mem_cons_self)]
    exact ih fun d mem => all d (List.mem_cons_of_mem _ mem)

theorem digitsClean {digits : Bytes} (all : ∀ b ∈ digits,isdigit b = true) : Clean digits := by
  refine ⟨fun mem => ?_,fun mem => ?_,fun mem => ?_⟩
  · simpa [isdigit] using all _ mem
  · simpa [isdigit] using all _ mem
  · simpa [isdigit] using all _ mem

theorem statusLineClean {reply : Reply} {resource} (allowed : reply.Allowed resource) : Clean reply.statusLine := by
  have major := digitsClean allowed.major.2
  have minor := digitsClean allowed.minor.2
  have reason := allowed.reason
  have http : Clean (ascii "HTTP/") := by decide
  have code : Clean reply.code := by
    unfold Reply.code
    split <;> decide
  unfold Clean at major minor reason http code ⊢
  unfold Reply.statusLine
  simp [major,minor,reason,http,code]

theorem statusAccepted {reply : Reply} {resource} (allowed : reply.Allowed resource) :
    (parseStatusLine (reply.statusLine ++ crlf) reply.statusLine.length).ret = .ok := by
  have http : (ascii "HTTP/").isPrefixOf (reply.statusLine ++ crlf) = true := by
    rw [List.isPrefixOf_iff_prefix,Reply.statusLine]
    simp only [List.append_assoc]
    exact List.prefix_append _ _
  have major : (reply.statusLine ++ crlf).drop 5 =
      reply.major ++ 46 :: (reply.minor ++ 32 :: (reply.code ++ 32 :: (reply.reason ++ crlf))) := by
    have five : (ascii "HTTP/").length = 5 := by decide
    rw [Reply.statusLine,← five]
    simp
  have longer {digits : Bytes} (some_ : digits ≠ []) (rest : Bytes) : ¬ rest = digits ++ rest := by
    intro same
    have sizes := congrArg List.length same
    have positive := List.length_pos_iff.mpr some_
    rw [List.length_append] at sizes
    omega
  unfold parseStatusLine
  rw [http,major]
  simp only [not_true_eq_false,if_false]
  rw [dropDigits allowed.major.2 (by decide),if_neg (by simp [longer allowed.major.1])]
  simp only [List.drop_succ_cons,List.drop_zero]
  rw [dropDigits allowed.minor.2 (by decide),if_neg (by simp [longer allowed.minor.1])]
  simp only [List.drop_succ_cons,List.drop_zero,Reply.code]
  split
  · rfl
  · rfl

theorem fieldsDrain {info : Info} (header : info.stage = .parseHeader) {fields : List Bytes}
    (clean : ∀ line ∈ fields,line ≠ [] ∧ Clean line) (body : Bytes) :
    (Progress.machine.drain ⟨info,[]⟩ (headLines fields body)).1.info.stage ≠ .finish ∧
    (Progress.machine.drain ⟨info,[]⟩ (headLines fields body)).1.body =
      if ∀ line ∈ fields,Fits line then body else [] := by
  induction fields generalizing info with
  | nil =>
    rw [headEnds header body]
    simp
  | cons line fields ih =>
    obtain ⟨some_,plain⟩ := clean line List.mem_cons_self
    have found := lineEndClean plain (headLines fields body)
    rcases Decidable.em (Fits line) with fits | wide
    · rw [if_pos fits] at found
      have rest := ih (fieldStill header (line ++ crlf)) fun l mem => clean l (List.mem_cons_of_mem _ mem)
      rw [drainStep Progress.machine (fieldStep header some_ found),rest.2]
      refine ⟨rest.1,?_⟩
      simp [fits]
    · rw [if_neg wide] at found
      rw [lineStuck (.inr header) found]
      simp [wide,header]

theorem replyDrain {info : Info} (fresh : info.Fresh) {reply : Reply} {resource}
    (allowed : reply.Allowed resource) :
    (Progress.machine.drain ⟨info.bare,[]⟩ (reply.stream resource)).1.body =
      if reply.Fits then reply.body resource else [] := by
  have status : info.bare.stage = .parseStatusLine := fresh.stage
  have plain := statusLineClean allowed
  have found := lineEndClean plain (headLines reply.fields (reply.body resource))
  unfold Reply.stream Reply.Fits
  rcases Decidable.em (Fits reply.statusLine) with fits | wide
  · rw [if_pos fits] at found
    have header : (info.bare.judge (parseStatusLine (reply.statusLine ++ crlf) reply.statusLine.length)).stage =
        .parseHeader := by
      simp [Info.judge,statusAccepted allowed]
    rw [drainStep Progress.machine (statusStep status found),(fieldsDrain header allowed.fields _).2]
    simp [fits]
  · rw [if_neg wide] at found
    rw [lineStuck (.inl status) found]
    simp [wide]

theorem flushMoment (info : Info) {file : File} (plain : file.AtEnd) (results : List WriteResult) :
    ∃ more m,(httpDlFlushBufData info file []).2.1.content = file.content ++ more ∧
      (httpDlFlushBufData info file results).2.1.content = file.content ++ List.take m more := by
  have still : ∃ more m,file.content = file.content ++ more ∧
      file.content = file.content ++ List.take m more := ⟨([] : Bytes),0,by simp,by simp⟩
  unfold httpDlFlushBufData
  split
  · exact still
  · split
    · exact still
    · dsimp only
      split
      · exact still
      · split
        · split <;> exact still
        · obtain ⟨m,written⟩ : ∃ m,(httpDlWrite file ((info.buf.drop info.bufData).take (info.bufTail - info.bufData))
              results).1.content = file.content ++ List.take m ((info.buf.drop info.bufData).take (info.bufTail - info.bufData)) :=
            ⟨_,(writeTaken plain _ results).1⟩
          have whole := (writeTaken plain ((info.buf.drop info.bufData).take (info.bufTail - info.bufData)) []).1
          rw [taken,List.take_length] at whole
          refine ⟨(info.buf.drop info.bufData).take (info.bufTail - info.bufData),m,?_,?_⟩
          · rw [← whole]
            split <;> rfl
          · rw [← written]
            split <;> rfl

theorem stagesMoment (passes : Nat) (info : Info) {file : File} (plain : file.AtEnd) (results : List WriteResult) :
    ∃ more m,(httpDlStages passes info file []).2.1.content = file.content ++ more ∧
      (httpDlStages passes info file results).2.1.content = file.content ++ List.take m more := by
  have still : ∃ more m,file.content = file.content ++ more ∧
      file.content = file.content ++ List.take m more := ⟨([] : Bytes),0,by simp,by simp⟩
  induction passes generalizing info with
  | zero => exact still
  | succ passes ih =>
    have parsed (next : Info) (ret : Ret) (same : ∀ results,httpDlStage info file results = (next,file,ret)) :
        ∃ more m,(httpDlStages (passes + 1) info file []).2.1.content = file.content ++ more ∧
          (httpDlStages (passes + 1) info file results).2.1.content = file.content ++ List.take m more := by
      simp only [httpDlStages,same]
      cases ret with
      | again => exact ih next
      | _ => exact still
    cases stage : info.stage with
    | parseStatusLine =>
      exact parsed (httpDlParseStatusLine info).1 (httpDlParseStatusLine info).2 fun results => by simp only [httpDlStage,stage]
    | parseHeader => exact parsed (httpDlParseHeader info).1 (httpDlParseHeader info).2 fun results => by simp only [httpDlStage,stage]
    | recvContent =>
      rcases Decidable.em (info.bufData = info.bufTail) with empty | some_
      · exact parsed info .ok fun results => by simp [httpDlStage,stage,httpDlRecvContent,empty]
      · have flushed (results) : httpDlStage info file results =
            ((httpDlFlushBufData info file results).1,(httpDlFlushBufData info file results).2.1,.ok) := by
          simp [httpDlStage,stage,httpDlRecvContent,some_]
        simp only [httpDlStages,flushed]
        exact flushMoment info plain results
    | _ => exact parsed info .internal fun results => by simp only [httpDlStage,stage]

inductive Moment (info : Info) (file : File) (stream : Bytes) : Bytes → Prop where
  | between {sent rest mid out} (same : stream = sent ++ rest) (path : Transfer info file sent mid out) :
      Moment info file stream out.content
  | inside {sent chunk rest mid out} (results : List WriteResult) (same : stream = sent ++ chunk ++ rest)
      (path : Transfer info file sent mid out) (fits : chunk.length ≤ mid.freeSpace) :
      Moment info file stream (httpDlRecvResp mid out (.data chunk) results).2.1.content

theorem drainGrows (info : Info) (xs ys : Bytes) :
    (Progress.machine.drain ⟨info,[]⟩ xs).1.body <+: (Progress.machine.drain ⟨info,[]⟩ (xs ++ ys)).1.body := by
  rw [drainSplit]
  exact List.prefix_append _ _

theorem storedBody {r : Info × File × Ret} {file : File} {d : Progress × Bytes} (h : Handled r file d) :
    r.2.1.content = file.content ++ d.1.body := by
  rcases Decidable.em (d.1.info.stage = .finish) with finished | going
  · obtain ⟨_,_,same,empty⟩ := h.failed finished
    rw [same,empty,List.append_nil]
  · exact (h.going going).2.2.2.1

theorem momentGrows {info file pending stream content} (moment : Moment info file stream content)
    (start : info.Waiting pending) (plain : file.AtEnd) :
    ∃ more,content = file.content ++ more ∧
      more <+: (Progress.machine.drain ⟨info.bare,[]⟩ (pending ++ stream)).1.body := by
  cases moment with
  | @between sent rest mid out same path =>
    obtain ⟨_,_,written,_⟩ := transferRefines path start plain
    refine ⟨_,written,?_⟩
    rw [same,← List.append_assoc]
    exact drainGrows info.bare (pending ++ sent) rest
  | @inside sent chunk rest mid out results same path fits =>
    obtain ⟨waiting,bare,written,still⟩ := transferRefines path start plain
    rw [same,← List.append_assoc,← List.append_assoc]
    have whole := drainGrows info.bare (pending ++ sent ++ chunk) rest
    have split_ := drainSplit info.bare (pending ++ sent) chunk
    dsimp only at split_
    rw [← bare] at split_
    rcases chunk with _ | ⟨b,chunk⟩
    · have kept := (flushIdle waiting out results).2
      refine ⟨_,(congrArg File.content kept).trans written,?_⟩
      exact (drainGrows info.bare (pending ++ sent) []).trans whole
    · have clean : ∀ r ∈ ([] : List WriteResult),r.Succeeds := by simp
      obtain ⟨more,m,full,cut⟩ := stagesMoment 3 (mid.receive (b :: chunk)) still results
      have handled := recvHandled waiting.window waiting.reading waiting.fd still clean
        (List.cons_ne_nil b chunk) fits
      rw [split_] at whole
      refine ⟨(Progress.machine.drain ⟨info.bare,[]⟩ (pending ++ sent)).1.body ++ more.take m,?_,?_⟩
      · exact cut.trans (by rw [written,List.append_assoc])
      · have stored := storedBody handled
        rw [show (httpDlRecvResp mid out (.data (b :: chunk)) []).2.1.content = out.content ++ more from full,
          List.append_cancel_left_eq] at stored
        rw [stored]
        exact ((List.prefix_append_right_inj _).mpr (List.take_prefix m _)).trans whole

structure Intact (resource : Bytes) (k : Nat) (reply : Reply) (info : Info) (file : File) : Prop where
  always : ∀ content,Moment info file (reply.stream resource) content → content <+: resource
  complete : ∀ how last out,Delivers info file (reply.stream resource) how last out →
    match reply.first with
    | none => out.content = resource
    | some first => if first = k then out.content = resource else out.content = resource.take k

theorem replyContent {info file how last out} {reply : Reply} {resource} (fresh : info.Fresh) (plain : file.AtEnd)
    (allowed : reply.Allowed resource) (path : Delivers info file (reply.stream resource) how last out) :
    out.content = file.content ++ if reply.Fits then reply.body resource else [] := by
  have stored := congrArg Report.content (deliversRefines path (freshWaiting fresh) plain)
  rw [← replyDrain fresh allowed]
  exact stored

theorem momentContent {info file content} {reply : Reply} {resource} (fresh : info.Fresh) (plain : file.AtEnd)
    (allowed : reply.Allowed resource) (moment : Moment info file (reply.stream resource) content) :
    ∃ more,content = file.content ++ more ∧ more <+: if reply.Fits then reply.body resource else [] := by
  rw [← replyDrain fresh allowed]
  have grown := momentGrows moment (freshWaiting fresh) plain
  rw [List.nil_append] at grown
  exact grown

def Reply.Matches (reply : Reply) (resource : Bytes) (k : Nat) : Prop :=
  if reply.Fits then reply.first = none ∧ k = 0 ∨ reply.first = some k
  else reply.first = none ∧ k = resource.length ∨ ∃ first,reply.first = some first ∧ first ≠ k

theorem openedFresh {info : Info} (found) {fd} (stage : info.stage = .parseStatusLine) (bufData : info.bufData = 0)
    (bufTail : info.bufTail = 0) (size : httpDlReadbufLen < info.buf.length) (opened : 0 ≤ fd) :
    (httpDlInitFilefd info found fd).1.Fresh := by
  unfold httpDlInitFilefd
  rw [if_neg (Int.not_lt.mpr opened)]
  exact ⟨stage,bufData,bufTail,size,opened⟩

theorem resumeIntact {resource : Bytes} {k} (known : k ≤ resource.length) {reply : Reply}
    (allowed : reply.Allowed resource) {info : Info} {found fd} (stage : info.stage = .parseStatusLine)
    (bufData : info.bufData = 0) (bufTail : info.bufTail = 0) (size : httpDlReadbufLen < info.buf.length)
    (opened : 0 ≤ fd) (disk : found.getD [] = resource.take k) :
    Intact resource k reply (httpDlInitFilefd info found fd).1 (httpDlInitFilefd info found fd).2.1 ↔
      reply.Matches resource k := by
  have fresh := openedFresh found stage bufData bufTail size opened
  obtain ⟨plain,content⟩ := initFilefdAtEnd info found fd
  rw [disk] at content
  generalize httpDlInitFilefd info found fd = r at fresh plain content ⊢
  constructor
  · intro intact
    obtain ⟨how,last,out,path⟩ := deliveryExists (freshWaiting fresh) plain (reply.stream resource) 1 (by decide)
    have complete := intact.complete how last out path
    rw [replyContent fresh plain allowed path,content] at complete
    unfold Reply.Matches
    cases first : reply.first with
    | none =>
      simp only [first] at complete
      have sizes := congrArg List.length complete
      rw [List.length_append,List.length_take] at sizes
      split <;> rename_i fits
      · simp only [if_pos fits,Reply.body,first] at sizes
        exact Or.inl ⟨rfl,by omega⟩
      · rw [if_neg fits,List.length_nil] at sizes
        exact Or.inl ⟨rfl,by omega⟩
    | some f =>
      have inside := (allowed.range f first).1
      simp only [first] at complete
      split at complete <;> rename_i same <;> have sizes := congrArg List.length complete <;>
        rw [List.length_append,List.length_take] at sizes <;> split <;> rename_i fits
      · exact Or.inr (congrArg some same)
      · rw [if_neg fits,List.length_nil] at sizes
        omega
      · simp only [if_pos fits,Reply.body,first,List.length_drop] at sizes
        omega
      · exact Or.inr ⟨f,rfl,same⟩
  · intro matched
    have whole : reply.Fits → resource.take k ++ reply.body resource = resource := by
      intro fits
      unfold Reply.Matches at matched
      rw [if_pos fits] at matched
      unfold Reply.body
      rcases matched with ⟨first,zero⟩ | first
      · simp [first,zero]
      · simp [first]
    refine ⟨fun content' moment => ?_,fun how last out path => ?_⟩
    · obtain ⟨more,same,part⟩ := momentContent fresh plain allowed moment
      rw [same,content]
      split at part <;> rename_i fits
      · have joined := (List.prefix_append_right_inj (resource.take k)).mpr part
        rw [whole fits] at joined
        exact joined
      · rw [List.prefix_nil.mp part,List.append_nil]
        exact List.take_prefix k resource
    · rw [replyContent fresh plain allowed path,content]
      unfold Reply.Matches at matched
      rcases Decidable.em reply.Fits with fits | wide
      · rw [if_pos fits,whole fits]
        rw [if_pos fits] at matched
        rcases matched with ⟨first,_⟩ | first
        · simp only [first]
        · simp only [first,if_true]
      · rw [if_neg wide,List.append_nil]
        rw [if_neg wide] at matched
        rcases matched with ⟨first,all⟩ | ⟨f,first,other⟩
        · simp only [first,all,List.take_length]
        · simp only [first,if_neg other]

def fullReply : Reply := ⟨ascii "1",ascii "1",ascii "OK",[],none⟩
def rangeReply : Reply := ⟨ascii "1",ascii "1",ascii "Partial Content",[contentRange 1 2],some 1⟩

theorem resumeFullReply : fullReply.Allowed (ascii "ab") ∧
    ¬ Intact (ascii "ab") 1 fullReply (httpDlInitFilefd freshInfo (some (ascii "a")) 3).1
      (httpDlInitFilefd freshInfo (some (ascii "a")) 3).2.1 := by
  have allowed : fullReply.Allowed (ascii "ab") :=
    ⟨by decide +kernel,by decide +kernel,by decide +kernel,by decide +kernel,by simp [fullReply]⟩
  refine ⟨allowed,fun intact => ?_⟩
  have fresh : (httpDlInitFilefd freshInfo (some (ascii "a")) 3).1.Fresh :=
    openedFresh _ rfl rfl rfl freshInfoFresh.size (by decide)
  obtain ⟨plain,content⟩ := initFilefdAtEnd freshInfo (some (ascii "a")) 3
  obtain ⟨how,last,out,path⟩ := deliveryExists (freshWaiting fresh) plain (fullReply.stream (ascii "ab")) 1 (by decide)
  have complete : out.content = ascii "ab" := intact.complete how last out path
  rw [replyContent fresh plain allowed path,content] at complete
  exact absurd complete (by decide)

theorem resumeIntactRange : Intact (ascii "ab") 1 rangeReply
    (httpDlInitFilefd freshInfo (some (ascii "a")) 3).1 (httpDlInitFilefd freshInfo (some (ascii "a")) 3).2.1 := by
  have allowed : rangeReply.Allowed (ascii "ab") := ⟨by decide +kernel,by decide +kernel,by decide +kernel,by decide +kernel,?_⟩
  · refine (resumeIntact (by decide) allowed rfl rfl rfl freshInfoFresh.size (by decide) rfl).mpr ?_
    unfold Reply.Matches
    rw [if_pos (by decide)]
    exact Or.inr rfl
  · intro first same
    cases same
    decide

end MipsElfExec.Download

import MipsElfExec.Download.Local
import MipsElfExec.Lib.Transducer

/-! What the client makes of the response stream, said without its buffer: whole
lines while the head lasts, then single body bytes. A line longer than the read
buffer is never seen, so the client waits in front of it for good. -/
namespace MipsElfExec.Download
open CString Transducer

def Info.bare (info : Info) : Info := { info with buf := [],bufData := 0,bufTail := 0,recvLen := 0 }

structure Progress where
  info : Info
  body : Bytes
  deriving DecidableEq, Repr

def lineEnd (pending : Bytes) : Option Nat := strstr (pending.take httpDlReadbufLen) crlf

def Info.judge (info : Info) (line : StatusLine) : Info :=
  { info with
      statusCode := line.statusCode
      errMsg := line.errMsg
      stage := if line.ret = .ok then .parseHeader else .finish }

def Info.header (info : Info) (pending : Bytes) (n : Nat) : Info :=
  if n = 0 then { info with stage := .recvContent } else httpDlHeaderLine info (pending.take (n + 2))

def Progress.step (s : Progress) (pending : Bytes) : Option (Progress × Bytes) :=
  match s.info.stage with
  | .parseStatusLine => (lineEnd pending).map fun n =>
      (⟨s.info.judge (parseStatusLine (pending.take (n + 2)) n),s.body⟩,pending.drop (n + 2))
  | .parseHeader => (lineEnd pending).map fun n =>
      (⟨s.info.header pending n,s.body⟩,pending.drop (n + 2))
  | .recvContent => match pending with
    | [] => none
    | b :: rest => some (⟨s.info,s.body ++ [b]⟩,rest)
  | _ => none

theorem lineEndBound {pending : Bytes} {n} (h : lineEnd pending = some n) :
    n + 2 ≤ pending.length ∧ n + 2 ≤ httpDlReadbufLen := by
  have inside := searchBound h
  have kept := (cstrPrefix (pending.take httpDlReadbufLen)).length_le
  simp only [List.length_take,crlf,List.length_cons,List.length_nil] at inside kept
  omega

theorem lineEndAppend {pending : Bytes} {n} (h : lineEnd pending = some n) (more : Bytes) :
    lineEnd (pending ++ more) = some n := by
  unfold lineEnd strstr at h ⊢
  rw [List.take_append]
  obtain ⟨rest,same⟩ := cstrAppendPrefix (pending.take httpDlReadbufLen)
    (more.take (httpDlReadbufLen - pending.length))
  rw [← same]
  exact searchExtends h rest

theorem stepCases {s : Progress} {xs t ys} (h : s.step xs = some (t,ys)) :
    (∃ n,s.info.stage = .parseStatusLine ∧ lineEnd xs = some n ∧
      t = ⟨s.info.judge (parseStatusLine (xs.take (n + 2)) n),s.body⟩ ∧ ys = xs.drop (n + 2)) ∨
    (∃ n,s.info.stage = .parseHeader ∧ lineEnd xs = some n ∧ t = ⟨s.info.header xs n,s.body⟩ ∧
      ys = xs.drop (n + 2)) ∨
    ∃ b,s.info.stage = .recvContent ∧ xs = b :: ys ∧ t = ⟨s.info,s.body ++ [b]⟩ := by
  unfold Progress.step at h
  split at h
  · rename_i status
    obtain ⟨n,found,same⟩ := Option.map_eq_some_iff.mp h
    cases same
    exact Or.inl ⟨n,status,found,rfl,rfl⟩
  · rename_i header
    obtain ⟨n,found,same⟩ := Option.map_eq_some_iff.mp h
    cases same
    exact Or.inr (Or.inl ⟨n,header,found,rfl,rfl⟩)
  · rename_i content
    split at h
    · contradiction
    · cases Option.some.inj h
      exact Or.inr (Or.inr ⟨_,content,rfl,rfl⟩)
  · contradiction

theorem stepShrinks {s : Progress} {xs t ys} (h : s.step xs = some (t,ys)) : ys.length < xs.length := by
  rcases stepCases h with ⟨n,_,found,_,rest⟩ | ⟨n,_,found,_,rest⟩ | ⟨b,_,rest,_⟩
  · have := lineEndBound found
    rw [rest,List.length_drop]
    omega
  · have := lineEndBound found
    rw [rest,List.length_drop]
    omega
  · simp [rest]

theorem stepWaits {s : Progress} {xs t ys} (h : s.step xs = some (t,ys)) (zs : Bytes) :
    s.step (xs ++ zs) = some (t,ys ++ zs) := by
  rcases stepCases h with ⟨n,stage,found,next,rest⟩ | ⟨n,stage,found,next,rest⟩ | ⟨b,stage,rest,next⟩
  · have fits := (lineEndBound found).1
    simp only [Progress.step,stage,lineEndAppend found,Option.map_some,List.take_append_of_le_length fits,
      List.drop_append_of_le_length fits,next,rest]
  · have fits := (lineEndBound found).1
    simp only [Progress.step,Info.header,stage,lineEndAppend found,Option.map_some,
      List.take_append_of_le_length fits,List.drop_append_of_le_length fits,next,rest]
  · simp only [Progress.step,stage,rest,List.cons_append,next]

def Progress.machine : Machine Progress Byte where
  step := Progress.step
  shrinks := stepShrinks
  waits := fun h zs => stepWaits h zs

theorem drainContent {s : Progress} (content : s.info.stage = .recvContent) (pending : Bytes) :
    Progress.machine.drain s pending = (⟨s.info,s.body ++ pending⟩,[]) := by
  induction pending generalizing s with
  | nil =>
    rw [drainIdle Progress.machine (by simp [Progress.machine,Progress.step,content])]
    simp
  | cons b pending ih =>
    have step : Progress.machine.step s (b :: pending) = some (⟨s.info,s.body ++ [b]⟩,pending) := by
      simp [Progress.machine,Progress.step,content]
    rw [drainStep Progress.machine step,ih (s := ⟨s.info,s.body ++ [b]⟩) content]
    simp

theorem headerLineFrame (info : Info) (header : Bytes) : ∃ contentLen totalLen,
    httpDlHeaderLine info header = { info with contentLen := contentLen,totalLen := totalLen } := by
  unfold httpDlHeaderLine Info.takeContentLen Info.takeRange
  repeat' split
  all_goals exact ⟨_,_,rfl⟩

theorem headerFrame (info : Info) (pending : Bytes) (n : Nat) :
    (info.header pending n).filefd = info.filefd ∧
    ((info.header pending n).stage = info.stage ∨ (info.header pending n).stage = .recvContent) := by
  unfold Info.header
  split
  · exact ⟨rfl,Or.inr rfl⟩
  · obtain ⟨contentLen,totalLen,frame⟩ := headerLineFrame info (pending.take (n + 2))
    rw [frame]
    exact ⟨rfl,Or.inl rfl⟩

theorem drainKeeps (s : Progress) (pending : Bytes) :
    (Progress.machine.drain s pending).1.info.filefd = s.info.filefd := by
  refine drainInvariant Progress.machine (P := fun t => t.info.filefd = s.info.filefd) ?_ rfl pending
  intro t xs u ys kept step
  rcases stepCases step with ⟨n,_,_,next,_⟩ | ⟨n,_,_,next,_⟩ | ⟨b,_,_,next⟩
  · rw [next]
    exact kept
  · rw [next,← kept]
    exact (headerFrame t.info xs n).1
  · rw [next]
    exact kept

def Info.Reading (info : Info) : Prop :=
  info.stage = .parseStatusLine ∨ info.stage = .parseHeader ∨ info.stage = .recvContent

theorem drainReading {s : Progress} (reading : s.info.Reading) (pending : Bytes) :
    (Progress.machine.drain s pending).1.info.Reading ∨
    (Progress.machine.drain s pending).1.info.stage = .finish := by
  refine drainInvariant Progress.machine (P := fun t => t.info.Reading ∨ t.info.stage = .finish) ?_
    (Or.inl reading) pending
  intro t xs u ys before step
  rcases stepCases step with ⟨n,_,_,next,_⟩ | ⟨n,header,_,next,_⟩ | ⟨b,content,_,next⟩
  · rw [next]
    simp only [Info.judge,Info.Reading]
    split
    · exact Or.inl (Or.inr (Or.inl rfl))
    · exact Or.inr rfl
  · rw [next]
    rcases (headerFrame t.info xs n).2 with same | last
    · exact Or.inl (Or.inr (Or.inl (same.trans header)))
    · exact Or.inl (Or.inr (Or.inr last))
  · rw [next]
    exact Or.inl (Or.inr (Or.inr content))

theorem stepBody (s : Progress) (body pending : Bytes) :
    Progress.step ⟨s.info,body ++ s.body⟩ pending =
      (s.step pending).map fun r => (⟨r.1.info,body ++ r.1.body⟩,r.2) := by
  simp only [Progress.step]
  split
  · simp [Option.map_map,Function.comp_def]
  · simp [Option.map_map,Function.comp_def]
  · split <;> simp
  · rfl

theorem drainBody (info : Info) (body pending : Bytes) :
    Progress.machine.drain ⟨info,body⟩ pending =
      (⟨(Progress.machine.drain ⟨info,[]⟩ pending).1.info,
        body ++ (Progress.machine.drain ⟨info,[]⟩ pending).1.body⟩,
       (Progress.machine.drain ⟨info,[]⟩ pending).2) := by
  have moved := drainMap Progress.machine (f := fun s => ⟨s.info,body ++ s.body⟩)
    (fun s xs => stepBody s body xs) ⟨info,[]⟩ pending
  simpa using moved

theorem drainSplit (info : Info) (xs ys : Bytes) :
    Progress.machine.drain ⟨info,[]⟩ (xs ++ ys) =
      let first := Progress.machine.drain ⟨info,[]⟩ xs
      let second := Progress.machine.drain ⟨first.1.info,[]⟩ (first.2 ++ ys)
      (⟨second.1.info,first.1.body ++ second.1.body⟩,second.2) := by
  rw [drainAppend]
  exact drainBody _ _ _

end MipsElfExec.Download

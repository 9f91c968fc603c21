import MipsElfExec.Download.Intake

/-! The order of the header lines. Two lines write total_len, each under a condition on what it finds there; what both
leave is the same in either order as long as the range does not name a length of 0. -/
namespace MipsElfExec.Download
open CString Transducer Run

section run
variable {s t : Intake} {e : Call} {head : Info} {stream pending : Bytes}

structure Intake.Follows (s : Intake) (head : Info) (stream pending : Bytes) : Prop where
  open_ : s.Open pending
  bare : s.info.bare = (Progress.machine.drain ⟨head,[]⟩ stream).1.info
  rest : s.info.stage ≠ .recvContent → pending = (Progress.machine.drain ⟨head,[]⟩ stream).2

theorem drainNothing {info : Info} {pending : Bytes}
    (parsing : (Progress.machine.drain ⟨info,[]⟩ pending).1.info.stage ≠ .recvContent) :
    (Progress.machine.drain ⟨info,[]⟩ pending).1.body = [] := by
  refine drainInvariant Progress.machine (P := fun p => p.info.stage ≠ .recvContent → p.body = []) ?_ (fun _ => rfl) pending parsing
  intro p xs q ys before step late
  rcases stepCases step with ⟨n,stage,_,next,_⟩ | ⟨n,stage,_,next,_⟩ | ⟨b,stage,_,next⟩
  · rw [next]
    exact before (by rw [stage]; decide)
  · rw [next]
    exact before (by rw [stage]; decide)
  · rw [next] at late
    exact absurd stage late

theorem followsDrain (F : s.Follows head stream pending) (chunk : Bytes) :
    (Progress.machine.drain ⟨s.info.bare,[]⟩ (pending ++ chunk)).1.info =
      (Progress.machine.drain ⟨head,[]⟩ (stream ++ chunk)).1.info ∧
    ((Progress.machine.drain ⟨s.info.bare,[]⟩ (pending ++ chunk)).1.info.stage ≠ .recvContent →
      (Progress.machine.drain ⟨s.info.bare,[]⟩ (pending ++ chunk)).2 = (Progress.machine.drain ⟨head,[]⟩ (stream ++ chunk)).2) := by
  have split_ := drainSplit head stream chunk
  dsimp only at split_
  rw [← F.bare] at split_
  rcases Decidable.em (s.info.stage = .recvContent) with content | parsing
  · have here := drainContent (s := ⟨s.info.bare,[]⟩) content (pending ++ chunk)
    have there := drainContent (s := ⟨s.info.bare,[]⟩) content ((Progress.machine.drain ⟨head,[]⟩ stream).2 ++ chunk)
    rw [split_,here,there]
    exact ⟨rfl,fun parsing => absurd content parsing⟩
  · rw [split_,← F.rest parsing]
    exact ⟨rfl,fun _ => rfl⟩

theorem followsStep (F : s.Follows head stream pending) (next : s.step e = some t) :
    (t.ret = .again → ∃ pending,t.Follows head (stream ++ e.arrival.received) pending) ∧
    (t.info.stage = .recvContent → t.info.bare = (Progress.machine.drain ⟨head,[]⟩ (stream ++ e.arrival.received)).1.info) := by
  obtain ⟨again,possible,rfl⟩ := takeStep next
  have ends (quiet : e.arrival.read = .data []) (none_ : e.arrival.received = []) :
      ((s.next e).2.2 = .again → ∃ pending,(⟨(s.next e).1,(s.next e).2.1,(s.next e).2.2⟩ : Intake).Follows head
        (stream ++ e.arrival.received) pending) ∧
      ((s.next e).1.stage = .recvContent → (s.next e).1.bare =
        (Progress.machine.drain ⟨head,[]⟩ (stream ++ e.arrival.received)).1.info) := by
    obtain ⟨bare,_,ended⟩ := endNext F.open_ quiet
    rw [none_,List.append_nil]
    exact ⟨fun going => absurd going ended,fun _ => bare.trans F.bare⟩
  obtain ⟨arrival,results⟩ := e
  cases arrival with
  | error =>
    have ended : (s.next ⟨.error,results⟩).2.2 ≠ .again := Ret.noConfusion
    refine ⟨fun going => absurd going ended,fun _ => ?_⟩
    change s.info.bare = (Progress.machine.drain ⟨head,[]⟩ (stream ++ [])).1.info
    rw [List.append_nil]
    exact F.bare
  | closed => exact ends rfl rfl
  | full => exact ends rfl rfl
  | bytes b rest =>
    have fits : rest.length < s.info.freeSpace := of_decide_eq_true possible
    obtain ⟨called,_⟩ := @readCalled s pending F.open_ b rest fits results
    obtain ⟨info,left⟩ := followsDrain F (b :: rest)
    rcases Decidable.em ((Progress.machine.drain ⟨s.info.bare,[]⟩ (pending ++ b :: rest)).1.info.stage = .finish)
      with finished | going
    · obtain ⟨ret,_,_,_,_,stage⟩ := called.failed finished
      refine ⟨fun going => absurd (ret.symm.trans going) Ret.noConfusion,fun content => ?_⟩
      exact absurd (stage.symm.trans content) Stage.noConfusion
    · obtain ⟨_,bare,_⟩ := called.going going
      refine ⟨fun _ => ⟨_,calledOpen F.open_ called going,bare.trans info,fun late => ?_⟩,fun _ => bare.trans info⟩
      have parsing : (Progress.machine.drain ⟨s.info.bare,[]⟩ (pending ++ b :: rest)).1.info.stage ≠ .recvContent := by
        rw [← bare]
        exact late
      rw [drainNothing parsing,List.drop_nil,List.nil_append]
      exact left parsing

theorem followsRun {es : List Call} (F : s.Follows head stream pending) (path : run Intake.step s es = some t)
    (content : t.info.stage = .recvContent) :
    t.info.bare = (Progress.machine.drain ⟨head,[]⟩ (stream ++ received es)).1.info := by
  induction es generalizing s stream pending with
  | nil =>
    cases path
    rw [received,List.flatMap_nil,List.append_nil]
    exact F.bare
  | cons e es ih =>
    obtain ⟨u,next,rest⟩ := Option.bind_eq_some_iff.mp path
    obtain ⟨going,last⟩ := followsStep F next
    have whole : stream ++ received (e :: es) = stream ++ e.arrival.received ++ received es := by
      rw [received,List.flatMap_cons,List.append_assoc]
      rfl
    rw [whole]
    rcases Decidable.em (u.ret = .again) with again | ended
    · obtain ⟨pending',F'⟩ := going again
      exact ih F' rest
    · cases es with
      | nil =>
        cases rest
        rw [received,List.flatMap_nil,List.append_nil]
        exact last content
      | cons e' es =>
        obtain ⟨v,next',_⟩ := Option.bind_eq_some_iff.mp rest
        exact absurd (takeStep next').1 ended

end run

structure Line (line : Bytes) : Prop where
  some_ : line ≠ []
  nul : (0 : Byte) ∉ line
  ends : search crlf (line ++ crlf) = some line.length

section lines
variable {lines : List Bytes} {info : Info}

theorem linesDrain (header : info.stage = .parseHeader) (all : ∀ l ∈ lines,Line l) (rest : Bytes)
    (done : (Progress.machine.drain ⟨info,[]⟩ (headLines lines rest)).1.info.stage = .recvContent) :
    (Progress.machine.drain ⟨info,[]⟩ (headLines lines rest)).1.info =
      { lines.foldl (fun info l => httpDlHeaderLine info (l ++ crlf)) info with stage := .recvContent } := by
  induction lines generalizing info with
  | nil =>
    rw [headEnds header rest]
    rfl
  | cons line lines ih =>
    have L := all line List.mem_cons_self
    have found := lineEndFirst L.nul L.ends (headLines lines rest)
    rcases Decidable.em (Fits line) with fits | wide
    · rw [if_pos fits] at found
      rw [drainStep Progress.machine (fieldStep header L.some_ found)] at done ⊢
      exact ih (fieldStill header (line ++ crlf)) (fun l mem => all l (List.mem_cons_of_mem _ mem)) done
    · rw [if_neg wide] at found
      rw [lineStuck (.inr header) found] at done
      exact absurd (header.symm.trans done) Stage.noConfusion

theorem headDrain {status : Bytes} (stage : info.stage = .parseStatusLine) (first : Line status) (all : ∀ l ∈ lines,Line l)
    (rest : Bytes)
    (done : (Progress.machine.drain ⟨info,[]⟩ (headLines (status :: lines) rest)).1.info.stage = .recvContent) :
    (Progress.machine.drain ⟨info,[]⟩ (headLines (status :: lines) rest)).1.info =
      { lines.foldl (fun info l => httpDlHeaderLine info (l ++ crlf))
          (info.judge (parseStatusLine (status ++ crlf) status.length)) with stage := .recvContent } := by
  have found := lineEndFirst first.nul first.ends (headLines lines rest)
  rcases Decidable.em (Fits status) with fits | wide
  · rw [if_pos fits] at found
    rw [drainStep Progress.machine (statusStep stage found)] at done ⊢
    rcases Decidable.em ((parseStatusLine (status ++ crlf) status.length).ret = .ok) with ok | bad
    · exact linesDrain (if_pos ok) all rest done
    · have finished : (info.judge (parseStatusLine (status ++ crlf) status.length)).stage = .finish := if_neg bad
      have stopped : Progress.machine.step ⟨info.judge (parseStatusLine (status ++ crlf) status.length),[]⟩
          (headLines lines rest) = none := stepFinish finished _
      rw [drainIdle Progress.machine stopped] at done
      exact absurd (finished.symm.trans done) Stage.noConfusion
  · rw [if_neg wide] at found
    rw [lineStuck (.inl stage) found] at done
    exact absurd (stage.symm.trans done) Stage.noConfusion

theorem headRun {file : File} {status rest : Bytes} {es : List Call} {t : Intake} (fresh : info.Fresh) (plain : file.AtEnd)
    (first : Line status) (all : ∀ l ∈ lines,Line l) (sent : received es = headLines (status :: lines) rest)
    (path : run Intake.step (Intake.start info file) es = some t) (content : t.info.stage = .recvContent) :
    t.info.bare = { lines.foldl (fun info l => httpDlHeaderLine info (l ++ crlf))
      (info.bare.judge (parseStatusLine (status ++ crlf) status.length)) with stage := .recvContent } := by
  have start := freshWaiting fresh
  have idle := drainIdle Progress.machine start.idle
  have F : (Intake.start info file).Follows info.bare [] [] := by
    refine ⟨⟨start.window,start.reading,start.fd,plain⟩,?_,fun _ => ?_⟩
    · rw [idle]
      rfl
    · rw [idle]
  have follows := followsRun F path content
  rw [List.nil_append,sent] at follows
  have done := (congrArg Info.stage follows).symm.trans content
  rw [follows]
  exact @headDrain _ info.bare _ fresh.stage first all rest done

end lines

inductive Field where
  | length (value : Option Int)
  | range (range : Range)
  | other
  deriving DecidableEq, Repr

def field (header : Bytes) : Field :=
  match httpDlHeaderProcess header (ascii "Content-Length") httpDlHeaderExtractLongNum with
  | .ok value => .length (some value)
  | .invalid => .length none
  | .notfound =>
  match httpDlHeaderProcess header (ascii "Content-Type") httpDlHeaderDupStrToBuf with
  | .ok _ | .invalid => .other
  | .notfound =>
  match httpDlHeaderProcess header (ascii "Accept-Ranges") httpDlHeaderDupStrToBuf with
  | .ok _ | .invalid => .other
  | .notfound =>
  match httpDlHeaderProcess header (ascii "Content-Range") httpDlHeaderParseRange with
  | .ok range => .range range
  | .invalid | .notfound => .other

def Info.set (info : Info) : Field → Info
  | .length value => ({ info with contentLen := value.getD info.contentLen }).takeContentLen
  | .range range => info.takeRange range
  | .other => info

theorem headerLineSets (info : Info) (header : Bytes) : httpDlHeaderLine info header = info.set (field header) := by
  unfold httpDlHeaderLine field
  cases httpDlHeaderProcess header (ascii "Content-Length") httpDlHeaderExtractLongNum with
  | ok value => rfl
  | invalid => rfl
  | notfound =>
    cases httpDlHeaderProcess header (ascii "Content-Type") httpDlHeaderDupStrToBuf with
    | ok _ | invalid => rfl
    | notfound =>
      cases httpDlHeaderProcess header (ascii "Accept-Ranges") httpDlHeaderDupStrToBuf with
      | ok _ | invalid => rfl
      | notfound => cases httpDlHeaderProcess header (ascii "Content-Range") httpDlHeaderParseRange <;> rfl

theorem setSwap (info : Info) (value : Option Int) {range : Range} (some_ : range.entityLength ≠ 0) :
    (info.set (.length value)).set (.range range) = (info.set (.range range)).set (.length value) := by
  have restart (i : Info) : i.takeContentLen.restartLen = i.restartLen := by
    unfold Info.takeContentLen
    split <;> rfl
  have filled (i : Info) : i.takeContentLen = { i with totalLen := i.takeContentLen.totalLen } := by
    unfold Info.takeContentLen
    split <;> rfl
  let marked : Info := { info with contentLen := value.getD info.contentLen }
  change marked.takeContentLen.takeRange range =
    ({ info.takeRange range with contentLen := value.getD (info.takeRange range).contentLen } : Info).takeContentLen
  rcases Decidable.em (info.restartLen = range.firstBytePos) with starts | other
  · have takes (i : Info) (same : i.restartLen = info.restartLen) :
        i.takeRange range = { i with totalLen := range.entityLength } := if_neg (not_not_intro (same.trans starts))
    have kept (i : Info) (set : i.totalLen ≠ 0) : i.takeContentLen = i := if_neg fun both => set both.2
    rw [takes _ (restart marked),takes info rfl]
    exact (congrArg (fun i : Info => { i with totalLen := range.entityLength }) (filled marked)).trans (kept _ some_).symm
  · have skips (i : Info) (same : i.restartLen = info.restartLen) : i.takeRange range = i :=
      if_pos fun bad => other (same.symm.trans bad)
    rw [skips _ (restart marked),skips info rfl]

def isField (name line : Bytes) : Bool := (matchName name (line ++ crlf)).any fun rest => rest.head? = some 58

theorem processNamed {α : Type} {name line : Bytes} {procfun : Bytes → Option α}
    (found : httpDlHeaderProcess (line ++ crlf) name procfun ≠ .notfound) : isField name line = true := by
  unfold httpDlHeaderProcess at found
  split at found
  · rename_i rest named
    simp [isField,named]
  · exact absurd rfl found

theorem fieldLength {line : Bytes} {value : Option Int} (same : field (line ++ crlf) = .length value) :
    isField (ascii "Content-Length") line = true := by
  refine @processNamed Int _ _ httpDlHeaderExtractLongNum fun none_ => ?_
  unfold field at same
  rw [none_] at same
  dsimp only at same
  repeat' split at same
  all_goals cases same

theorem fieldRange {line : Bytes} {range : Range} (same : field (line ++ crlf) = .range range) :
    httpDlHeaderProcess (line ++ crlf) (ascii "Content-Range") httpDlHeaderParseRange = .ok range := by
  unfold field at same
  repeat' split at same
  all_goals cases same
  assumption

structure Heading (lines : List Bytes) : Prop where
  each : ∀ l ∈ lines,Line l
  length : lines.countP (isField (ascii "Content-Length")) ≤ 1
  range : lines.countP (isField (ascii "Content-Range")) ≤ 1
  some_ : ∀ l ∈ lines,∀ range,httpDlHeaderProcess (l ++ crlf) (ascii "Content-Range") httpDlHeaderParseRange = .ok range →
    range.entityLength ≠ 0

theorem onceSame {α : Type} {p : α → Bool} {xs : List α} (once : xs.countP p ≤ 1) {a b : α} (memA : a ∈ xs) (memB : b ∈ xs)
    (onA : p a = true) (onB : p b = true) : a = b := by
  rw [List.countP_eq_length_filter] at once
  have inA := List.mem_filter.mpr ⟨memA,onA⟩
  have inB := List.mem_filter.mpr ⟨memB,onB⟩
  match kept : xs.filter p with
  | [] =>
    rw [kept] at inA
    cases inA
  | [c] =>
    rw [kept,List.mem_singleton] at inA inB
    exact inA.trans inB.symm
  | c :: d :: rest =>
    rw [kept] at once
    simp only [List.length_cons] at once
    omega

theorem foldOrder {lines lines' : List Bytes} (H : Heading lines) (order : lines.Perm lines') (info : Info) :
    lines.foldl (fun info l => httpDlHeaderLine info (l ++ crlf)) info =
      lines'.foldl (fun info l => httpDlHeaderLine info (l ++ crlf)) info := by
  refine order.foldl_eq' (fun a memA b memB i => ?_) info
  rw [headerLineSets,headerLineSets,headerLineSets,headerLineSets]
  cases first : field (a ++ crlf) with
  | other => rfl
  | length value =>
    cases second : field (b ++ crlf) with
    | other => rfl
    | length value' =>
      cases onceSame H.length memA memB (fieldLength first) (fieldLength second)
      cases first.symm.trans second
      rfl
    | range range => exact setSwap i value (H.some_ b memB range (fieldRange second))
  | range range =>
    cases second : field (b ++ crlf) with
    | other => rfl
    | length value => exact (setSwap i value (H.some_ a memA range (fieldRange first))).symm
    | range range' =>
      have named {l : Bytes} {range : Range} (same : field (l ++ crlf) = .range range) :
          isField (ascii "Content-Range") l = true := @processNamed Range _ _ httpDlHeaderParseRange (by rw [fieldRange same]; exact nofun)
      cases onceSame H.range memA memB (named first) (named second)
      cases first.symm.trans second
      rfl

/-- Two responses whose header lines differ in their order leave the same lengths when the content begins, for a fresh
download and for a resumed one, however they arrive. -/
theorem headerOrderFree {info : Info} {file : File} {status rest rest' : Bytes} {lines lines' : List Bytes} {es es' : List Call}
    {t t' : Intake} (fresh : info.Fresh) (plain : file.AtEnd) (first : Line status) (H : Heading lines)
    (order : lines.Perm lines') (sent : received es = headLines (status :: lines) rest)
    (sent' : received es' = headLines (status :: lines') rest')
    (path : run Intake.step (Intake.start info file) es = some t)
    (path' : run Intake.step (Intake.start info file) es' = some t')
    (content : t.info.stage = .recvContent) (content' : t'.info.stage = .recvContent) :
    t.info.contentLen = t'.info.contentLen ∧ t.info.totalLen = t'.info.totalLen := by
  have one := headRun fresh plain first H.each sent path content
  have two := headRun fresh plain first (fun l mem => H.each l (order.mem_iff.mpr mem)) sent' path' content'
  rw [← foldOrder H order] at two
  have same : t.info.bare = t'.info.bare := one.trans two.symm
  exact ⟨(congrArg Info.contentLen same : t.info.bare.contentLen = _),(congrArg Info.totalLen same : t.info.bare.totalLen = _)⟩

def ordered (fields : List String) : List Call :=
  [⟨.bytes 72 (ascii "TTP/1.1 200 OK\r\n" ++ headLines (fields.map ascii) []),[]⟩]

theorem headerOrderFreePlain : ∃ t t',
    run Intake.step (Intake.start freshInfo ⟨[],false,0⟩) (ordered ["Content-Length: 5","Content-Range: bytes 0-4/9"]) = some t ∧
    run Intake.step (Intake.start freshInfo ⟨[],false,0⟩) (ordered ["Content-Range: bytes 0-4/9","Content-Length: 5"]) = some t' ∧
    t.info.contentLen = t'.info.contentLen ∧ t.info.totalLen = t'.info.totalLen := by
  have ran (fields : List String) (goes : (run Intake.step (Intake.start freshInfo ⟨[],false,0⟩) (ordered fields)).map
      (fun t => t.info.stage) = some .recvContent) : ∃ t,
      run Intake.step (Intake.start freshInfo ⟨[],false,0⟩) (ordered fields) = some t ∧ t.info.stage = .recvContent :=
    Option.map_eq_some_iff.mp goes
  obtain ⟨t,path,content⟩ := ran ["Content-Length: 5","Content-Range: bytes 0-4/9"] (by decide +kernel)
  obtain ⟨t',path',content'⟩ := ran ["Content-Range: bytes 0-4/9","Content-Length: 5"] (by decide +kernel)
  have first : Line (ascii "HTTP/1.1 200 OK") := ⟨by decide,by decide,by decide⟩
  have length : Line (ascii "Content-Length: 5") := ⟨by decide,by decide,by decide⟩
  have range : Line (ascii "Content-Range: bytes 0-4/9") := ⟨by decide,by decide,by decide⟩
  have heading : Heading [ascii "Content-Length: 5",ascii "Content-Range: bytes 0-4/9"] := by
    refine ⟨?_,by decide,by decide,?_⟩
    · simp [length,range]
    · have none_ : httpDlHeaderProcess (ascii "Content-Length: 5" ++ crlf) (ascii "Content-Range") httpDlHeaderParseRange =
          .notfound := by decide
      have some_ : httpDlHeaderProcess (ascii "Content-Range: bytes 0-4/9" ++ crlf) (ascii "Content-Range")
          httpDlHeaderParseRange = .ok ⟨0,4,9⟩ := by decide
      simp only [List.mem_cons,List.not_mem_nil,or_false,forall_eq_or_imp,forall_eq,none_,some_]
      refine ⟨nofun,fun found same => ?_⟩
      cases Processed.ok.inj same
      decide
  exact ⟨t,t',path,path',@headerOrderFree _ _ _ [] [] _ _ _ _ _ _ freshInfoFresh (.inr rfl) first heading (.swap _ _ []) rfl rfl
    path path' content content'⟩

theorem headerOrderWraps :
    (run Intake.step (Intake.start freshInfo ⟨[],false,0⟩)
      (ordered ["Content-Length: 5","Content-Range: bytes 0-4/4294967296"])).map
      (fun t => (t.info.stage,t.info.contentLen,t.info.totalLen)) = some (.recvContent,5,0) ∧
    (run Intake.step (Intake.start freshInfo ⟨[],false,0⟩)
      (ordered ["Content-Range: bytes 0-4/4294967296","Content-Length: 5"])).map
      (fun t => (t.info.stage,t.info.contentLen,t.info.totalLen)) = some (.recvContent,5,5) := by
  decide +kernel

end MipsElfExec.Download

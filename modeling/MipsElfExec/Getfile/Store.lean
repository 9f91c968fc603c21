import MipsElfExec.Getfile.Path
import MipsElfExec.Lib.Run
import MipsElfExec.Snooping.Interleave

/-! A file on its way from the server into the store. The pipe gathers the body in a temporary
file; when the server closes, the file is moved to the path of its entry, and the result of the
download is reported by id. -/
namespace MipsElfExec.Getfile
open CString Snooping Run

structure Store where
  created : Bool
  urls : UrlId → UrlEntry
  stray : Bytes
  renamed : Bool

structure Job where
  request : Mapping
  statusN : Nat
  contentLengthN : Option Nat
  store : Store

def Job.mapping (job : Job) : Mapping := { job.request with getfile := true }

-- No input filter gives the pipe a length, so `length` stays unknown. `raw` is read but not yet written.
structure Upstream where
  raw : Bytes := []
  tempFile : Option Bytes := none
  length : Option Nat := none
  upstreamEof : Bool := false
  upstreamDone : Bool := false
  upstreamError : Bool := false
  store : Bool := true
  getfileSuccess : Bool := false
  renamed : Option (Bytes × Bytes) := none
  finalized : Bool := false
  reported : Option TableCall := none
  deriving DecidableEq, Repr

inductive Ending where
  | more | eof | error
  deriving DecidableEq, Repr

structure PipeRead where
  bytes : Bytes
  full : Nat
  ending : Ending
  aborted : Bool

inductive UpstreamEvent where
  | pipe (read : PipeRead)
  | timedout
  | cleanup

def Upstream.offset (u : Upstream) : Nat := (u.tempFile.map List.length).getD 0

def Upstream.write (u : Upstream) (bytes : Bytes) : Upstream :=
  if bytes = [] then u else { u with tempFile := some (u.tempFile.getD [] ++ bytes) }

-- Without a state where it ends in NGX_ABORT. A read error leaves what was read unwritten.
def ngxEventPipe (u : Upstream) (read : PipeRead) : Option Upstream :=
  let raw := u.raw ++ read.bytes
  if read.aborted then none
  else match read.ending with
  | .more => some { u.write (raw.take read.full) with raw := raw.drop read.full }
  | .eof => some { u.write raw with raw := [],upstreamEof := true }
  | .error => some { u with raw := raw,upstreamError := true }

-- ngx_ext_rename_file creates the directories of the path, and its result is not looked at.
def ngxHttpUpstreamStore (job : Job) (u : Upstream) : Upstream :=
  match u.tempFile.or (if job.store.created then some [] else none) with
  | none => u
  | some content =>
    let path := ((ngxHttpMapUriToPath job.store.urls job.mapping).map Path.data).getD job.store.stray
    { u with
      tempFile := some content
      renamed := if job.store.renamed then some (path,content) else none }

def getfileUpstreamFinalizeRequest (job : Job) (u : Upstream) : Option TableCall :=
  (finalizeUrlId job.mapping.args).map fun urlId => .setbyId urlId (if u.getfileSuccess then .ok else .error)

def ngxHttpUpstreamFinalizeRequest (job : Job) (u : Upstream) : Upstream :=
  { u with finalized := true,reported := getfileUpstreamFinalizeRequest job u }

def Upstream.stores (job : Job) (u : Upstream) : Bool :=
  u.store && (u.upstreamEof || u.upstreamDone) && job.statusN == 200 && (u.upstreamDone || u.length.isNone) &&
    (job.contentLengthN.isNone || job.contentLengthN == some u.offset)

def ngxHttpUpstreamProcessRequest (job : Job) (u : Upstream) : Upstream :=
  let u := if u.stores job then
      { ngxHttpUpstreamStore job u with
        getfileSuccess := job.mapping.getfile || u.getfileSuccess
        store := false }
    else u
  if u.upstreamDone || u.upstreamEof || u.upstreamError then ngxHttpUpstreamFinalizeRequest job u else u

def Job.step (job : Job) (u : Upstream) (e : UpstreamEvent) : Option Upstream :=
  if u.finalized then none
  else some (match e with
    | .pipe read =>
      match ngxEventPipe u read with
      | some u => ngxHttpUpstreamProcessRequest job u
      | none => ngxHttpUpstreamFinalizeRequest job u
    | .timedout => ngxHttpUpstreamProcessRequest job { u with upstreamError := true }
    | .cleanup => ngxHttpUpstreamFinalizeRequest job u)

def UpstreamEvent.bytes : UpstreamEvent → Bytes
  | .pipe read => read.bytes
  | _ => []

def received (events : List UpstreamEvent) : Bytes := events.flatMap UpstreamEvent.bytes

def UpstreamEvent.closes : UpstreamEvent → Bool
  | .pipe read => read.ending == .eof && !read.aborted
  | _ => false

def Job.path (job : Job) : Option Bytes :=
  if (storeName job.store.urls job.mapping).isSome then
    (ngxHttpMapUriToPath job.store.urls job.mapping).map Path.data
  else none

def Job.onDisk (job : Job) (events : List UpstreamEvent) (u : Upstream) : Prop :=
  ∃ path,job.path = some path ∧ u.renamed = some (path,received events) ∧
    job.contentLengthN = some (received events).length

def Job.delivered (job : Job) (events : List UpstreamEvent) : Prop :=
  job.statusN = 200 ∧ job.contentLengthN = some (received events).length ∧
    ∃ e,events.getLast? = some e ∧ e.closes = true

def Job.works (job : Job) : Prop :=
  (job.contentLengthN ≠ some 0 ∨ job.store.created = true) ∧ job.path ≠ none ∧ job.store.renamed = true

structure Gathers (u : Upstream) (body : Bytes) : Prop where
  body : u.tempFile.getD [] ++ u.raw = body
  begun : u.tempFile ≠ some []
  length : u.length = none
  going : (u.upstreamDone || u.upstreamEof || u.upstreamError) = false
  store : u.store = true
  quiet : u.getfileSuccess = false ∧ u.renamed = none ∧ u.finalized = false

section steps
variable {job : Job} {u t : Upstream} {body : Bytes} {urlId : Nat}

theorem startGathers : Gathers {} [] := ⟨rfl,nofun,rfl,rfl,rfl,rfl,rfl,rfl⟩

theorem writeContent (u : Upstream) (bytes : Bytes) :
    (u.write bytes).tempFile.getD [] = u.tempFile.getD [] ++ bytes := by
  unfold Upstream.write
  split
  · rename_i none_
    rw [none_,List.append_nil]
  · rfl

theorem writeBegun (begun : u.tempFile ≠ some []) (bytes : Bytes) : (u.write bytes).tempFile ≠ some [] := by
  unfold Upstream.write
  split
  · exact begun
  · rename_i more
    intro same
    have none_ := Option.some.inj same
    exact more (List.append_eq_nil_iff.mp none_).2

theorem writeSame (u : Upstream) (bytes : Bytes) : u.write bytes = { u with tempFile := (u.write bytes).tempFile } := by
  unfold Upstream.write
  split <;> rfl

theorem offsetContent (u : Upstream) : u.offset = (u.tempFile.getD []).length := by
  unfold Upstream.offset
  cases u.tempFile <;> rfl

structure Ended (job : Job) (due : Bool) (u t : Upstream) : Prop where
  finalized : t.finalized = true
  reported : t.reported =
    (finalizeUrlId job.mapping.args).map fun urlId => .setbyId urlId (if due then .ok else .error)
  renamed : t.renamed = if due then (ngxHttpUpstreamStore job u).renamed else none

theorem finalizeEnded (g : Gathers u body) (v : Upstream) (same : v.getfileSuccess = u.getfileSuccess)
    (still : v.renamed = u.renamed) : Ended job false u (ngxHttpUpstreamFinalizeRequest job v) := by
  refine ⟨rfl,?_,still.trans g.quiet.2.1⟩
  unfold ngxHttpUpstreamFinalizeRequest getfileUpstreamFinalizeRequest
  rw [same,g.quiet.1]

theorem processEnded (quiet : u.getfileSuccess = false ∧ u.renamed = none)
    (ends : (u.upstreamDone || u.upstreamEof || u.upstreamError) = true) :
    Ended job (u.stores job) u (ngxHttpUpstreamProcessRequest job u) := by
  unfold ngxHttpUpstreamProcessRequest
  have flags : (ngxHttpUpstreamStore job u).upstreamDone = u.upstreamDone ∧
      (ngxHttpUpstreamStore job u).upstreamEof = u.upstreamEof ∧
      (ngxHttpUpstreamStore job u).upstreamError = u.upstreamError := by
    unfold ngxHttpUpstreamStore
    split <;> exact ⟨rfl,rfl,rfl⟩
  cases due : u.stores job with
  | true =>
    simp only [if_true,flags,ends]
    exact ⟨rfl,rfl,rfl⟩
  | false =>
    simp only [Bool.false_eq_true,if_false,ends,if_true]
    refine ⟨rfl,?_,quiet.2⟩
    unfold ngxHttpUpstreamFinalizeRequest getfileUpstreamFinalizeRequest
    rw [quiet.1]

theorem processGoes (g : Gathers u body) : ngxHttpUpstreamProcessRequest job u = u := by
  have going := g.going
  have idle : u.stores job = false := by
    unfold Upstream.stores
    simp only [Bool.or_eq_false_iff] at going
    simp [going.1.1,going.1.2]
  unfold ngxHttpUpstreamProcessRequest
  simp [idle,going]

theorem storeMoves {v : Upstream} (content : v.tempFile.getD [] = body) (begun : v.tempFile ≠ some []) :
    (ngxHttpUpstreamStore job v).renamed =
      if (body ≠ [] ∨ job.store.created = true) ∧ job.store.renamed = true then
        some (((ngxHttpMapUriToPath job.store.urls job.mapping).map Path.data).getD job.store.stray,body)
      else if body ≠ [] ∨ job.store.created = true then none else v.renamed := by
  unfold ngxHttpUpstreamStore
  cases file : v.tempFile with
  | some bytes =>
    rw [file] at content begun
    have same : bytes = body := content
    have some_ : body ≠ [] := fun none_ => begun (by rw [same,none_])
    simp [same,some_]
  | none =>
    rw [file] at content
    have none_ : body = [] := content.symm
    subst none_
    cases job.store.created <;> simp

structure Closed (job : Job) (e : UpstreamEvent) (body : Bytes) (due : Bool) (v t : Upstream) : Prop where
  ended : Ended job due v t
  exact_ : due = true ↔ e.closes = true ∧ job.statusN = 200 ∧
    (job.contentLengthN = none ∨ job.contentLengthN = some body.length)
  content : due = true → v.tempFile.getD [] = body ∧ v.tempFile ≠ some [] ∧ v.renamed = none

theorem openClosed {e : UpstreamEvent} {v : Upstream} (open_ : e.closes = false) (ended : Ended job false v t) :
    Closed job e body false v t :=
  ⟨ended,iff_of_false Bool.false_ne_true fun both => Bool.false_ne_true (open_.symm.trans both.1),nofun⟩

theorem errorEnded (g : Gathers u body) (raw : Bytes) : ∃ v,Ended job false v
    (ngxHttpUpstreamProcessRequest job { u with raw := raw,upstreamError := true }) := by
  have going := g.going
  simp only [Bool.or_eq_false_iff] at going
  have idle : ({ u with raw := raw,upstreamError := true } : Upstream).stores job = false := by
    unfold Upstream.stores
    simp [going.1.1,going.1.2]
  have ended := @processEnded job { u with raw := raw,upstreamError := true }
    ⟨g.quiet.1,g.quiet.2.1⟩ (by simp)
  rw [idle] at ended
  exact ⟨_,ended⟩

theorem moreGathers (g : Gathers u body) (read : PipeRead) : Gathers
    { u.write ((u.raw ++ read.bytes).take read.full) with raw := (u.raw ++ read.bytes).drop read.full }
    (body ++ read.bytes) := by
  have same := writeSame u ((u.raw ++ read.bytes).take read.full)
  refine ⟨?_,writeBegun g.begun _,?_,?_,?_,?_⟩
  · dsimp only
    rw [writeContent,List.append_assoc,List.take_append_drop,← List.append_assoc,g.body]
  · rw [same]
    exact g.length
  · rw [same]
    exact g.going
  · rw [same]
    exact g.store
  · rw [same]
    exact g.quiet

theorem eofClosed (g : Gathers u body) (read : PipeRead) (eof : read.ending = .eof) (runs : read.aborted = false) :
    ∃ due v,Closed job (.pipe read) (body ++ read.bytes) due v (ngxHttpUpstreamProcessRequest job
      { u.write (u.raw ++ read.bytes) with raw := [],upstreamEof := true }) := by
  have going := g.going
  simp only [Bool.or_eq_false_iff] at going
  have content : (u.write (u.raw ++ read.bytes)).tempFile.getD [] = body ++ read.bytes := by
    rw [writeContent,← List.append_assoc,g.body]
  have size : ({ u.write (u.raw ++ read.bytes) with raw := [],upstreamEof := true } : Upstream).offset =
      (body ++ read.bytes).length := by
    rw [offsetContent]
    exact congrArg List.length content
  have same := writeSame u (u.raw ++ read.bytes)
  refine ⟨_,_,processEnded ?_ ?_,?_,fun _ => ⟨content,writeBegun g.begun _,?_⟩⟩
  · rw [same]
    exact ⟨g.quiet.1,g.quiet.2.1⟩
  · rw [same]
    simp
  · unfold Upstream.stores UpstreamEvent.closes
    rw [size,same]
    simp [eof,runs,g.store,g.length]
  · rw [same]
    exact g.quiet.2.1

theorem stepGathers {e : UpstreamEvent} (g : Gathers u body) (next : job.step u e = some t) :
    Gathers t (body ++ e.bytes) ∨ ∃ due v,Closed job e (body ++ e.bytes) due v t := by
  unfold Job.step at next
  rw [if_neg fun ended => Bool.false_ne_true (g.quiet.2.2.symm.trans ended)] at next
  cases Option.some.inj next
  cases e with
  | timedout =>
    obtain ⟨v,ended⟩ := @errorEnded job _ _ g u.raw
    exact .inr ⟨_,v,openClosed rfl ended⟩
  | cleanup => exact .inr ⟨_,_,openClosed rfl (finalizeEnded g u rfl rfl)⟩
  | pipe read =>
    dsimp only
    unfold ngxEventPipe
    cases aborted : read.aborted with
    | true =>
      have open_ : (UpstreamEvent.pipe read).closes = false := by simp [UpstreamEvent.closes,aborted]
      exact .inr ⟨_,_,openClosed open_ (finalizeEnded g u rfl rfl)⟩
    | false =>
      simp only [Bool.false_eq_true,if_false]
      cases ending : read.ending with
      | eof => exact .inr (eofClosed g read ending aborted)
      | error =>
        have open_ : (UpstreamEvent.pipe read).closes = false := by simp [UpstreamEvent.closes,ending]
        obtain ⟨v,ended⟩ := @errorEnded job _ _ g (u.raw ++ read.bytes)
        exact .inr ⟨_,v,openClosed open_ ended⟩
      | more =>
        have gathers := moreGathers g read
        dsimp only
        rw [processGoes gathers]
        exact .inl gathers

theorem closedFinal {e : UpstreamEvent} {due : Bool} {v : Upstream} (closed : Closed job e body due v t)
    (f : UpstreamEvent) : job.step t f = none := by
  unfold Job.step
  rw [closed.ended.finalized,if_pos rfl]

theorem runCloses {events : List UpstreamEvent} (g : Gathers u body) (path : run job.step u events = some t)
    (final : t.finalized = true) :
    ∃ e due v,events.getLast? = some e ∧ Closed job e (body ++ received events) due v t := by
  induction events generalizing u body with
  | nil =>
    cases Option.some.inj path
    exact absurd (g.quiet.2.2.symm.trans final) Bool.false_ne_true
  | cons e es ih =>
    obtain ⟨w,next,rest⟩ := Option.bind_eq_some_iff.mp path
    have more : body ++ received (e :: es) = body ++ e.bytes ++ received es := by
      simp [received]
    rw [more]
    rcases stepGathers g next with gathers | ⟨due,v,closed⟩
    · obtain ⟨last,due,v,same,closed⟩ := ih gathers rest
      refine ⟨last,due,v,?_,closed⟩
      rw [List.getLast?_cons,same]
      rfl
    · cases es with
      | nil =>
        cases Option.some.inj rest
        refine ⟨e,due,v,rfl,?_⟩
        rw [received,List.flatMap_nil,List.append_nil]
        exact closed
      | cons f fs =>
        obtain ⟨x,step,_⟩ := Option.bind_eq_some_iff.mp rest
        cases (closedFinal closed f).symm.trans step

theorem onDiskWorks {events : List UpstreamEvent} (size : job.contentLengthN = some (received events).length)
    (renamed : t.renamed = if (received events ≠ [] ∨ job.store.created = true) ∧ job.store.renamed = true then
        some (((ngxHttpMapUriToPath job.store.urls job.mapping).map Path.data).getD job.store.stray,received events)
      else if received events ≠ [] ∨ job.store.created = true then none else none) :
    job.onDisk events t ↔ job.works := by
  have empty : job.contentLengthN ≠ some 0 ↔ received events ≠ [] := by
    rw [size]
    simp
  unfold Job.onDisk Job.works
  rw [empty,renamed]
  constructor
  · rintro ⟨path,known,moved,_⟩
    split at moved
    · rename_i both
      exact ⟨both.1,known ▸ nofun,both.2⟩
    · split at moved <;> cases moved
  · rintro ⟨file,known,move⟩
    obtain ⟨path,here⟩ := Option.ne_none_iff_exists'.mp known
    have mapped : (ngxHttpMapUriToPath job.store.urls job.mapping).map Path.data = some path := by
      unfold Job.path at here
      split at here
      · exact here
      · cases here
    exact ⟨path,here,by rw [if_pos ⟨file,move⟩,mapped]; rfl,size⟩

/-- What is reported of a download is true exactly when the store step works wherever the whole answer came. -/
theorem doneOnDiskExactly (job : Job) (n : Nat) (urlId : UrlId) (events : List UpstreamEvent) (t : Upstream)
    (announced : job.contentLengthN = some n) (named : finalizeUrlId job.request.args = some urlId.val)
    (path : run job.step {} events = some t) (final : t.finalized = true) :
    ((t.reported = some (.setbyId urlId .ok) → job.onDisk events t) ∧
      (¬job.onDisk events t → t.reported = some (.setbyId urlId .error))) ↔
      (job.delivered events → job.works) := by
  obtain ⟨e,due,v,last,closed⟩ := runCloses startGathers path final
  rw [List.nil_append] at closed
  have reported := closed.ended.reported
  have renamed := closed.ended.renamed
  have same : finalizeUrlId job.mapping.args = some urlId.val := named
  rw [same,Option.map_some] at reported
  cases due with
  | false =>
    have failed : t.reported = some (.setbyId urlId .error) := reported
    refine iff_of_true ⟨fun done => ?_,fun _ => failed⟩ fun whole => ?_
    · rw [failed] at done
      cases done
    · obtain ⟨ok,size,f,lastly,closes⟩ := whole
      cases lastly.symm.trans last
      exact absurd (closed.exact_.mpr ⟨closes,ok,.inr size⟩) Bool.false_ne_true
  | true =>
    have done : t.reported = some (.setbyId urlId .ok) := reported
    obtain ⟨closes,ok,whole⟩ := closed.exact_.mp rfl
    have size : job.contentLengthN = some (received events).length := by
      rcases whole with none_ | size
      · cases announced.symm.trans none_
      · exact size
    obtain ⟨content,begun,still⟩ := closed.content rfl
    have moves := @storeMoves job _ _ content begun
    rw [still] at moves
    have delivered : job.delivered events := ⟨ok,size,e,last,closes⟩
    have true_ : ((t.reported = some (.setbyId urlId .ok) → job.onDisk events t) ∧
        (¬job.onDisk events t → t.reported = some (.setbyId urlId .error))) ↔ job.onDisk events t := by
      constructor
      · exact fun both => both.1 done
      · exact fun stored => ⟨fun _ => stored,fun other => (other stored).elim⟩
    refine true_.trans (Iff.trans ?_ ⟨fun works _ => works,fun implied => implied delivered⟩)
    exact onDiskWorks size (renamed.trans moves)

def movieJob (renamed : Bool) : Job :=
  { request := movieRequest (ascii "/getfile/as"),statusN := 200,contentLengthN := some 4
    store := ⟨true,storedMovie.urls,[],renamed⟩ }

def movieAnswer : List UpstreamEvent :=
  [.pipe ⟨ascii "fi",2,.more,false⟩,.pipe ⟨ascii "lm",0,.eof,false⟩]

def movieEnd (renamed : Bool) : Upstream :=
  { tempFile := some (ascii "film"),upstreamEof := true,store := false,getfileSuccess := true
    renamed := if renamed then some (ascii "/store/a_b/x.mp4" ++ [0],ascii "film") else none
    finalized := true,reported := some (.setbyId 32767 .ok) }

theorem movieRuns : ∀ renamed,run (movieJob renamed).step {} movieAnswer = some (movieEnd renamed) := by
  decide

theorem doneOnDiskMovie : (((movieEnd true).reported = some (.setbyId 32767 .ok) →
        (movieJob true).onDisk movieAnswer (movieEnd true)) ∧
      (¬(movieJob true).onDisk movieAnswer (movieEnd true) →
        (movieEnd true).reported = some (.setbyId 32767 .error))) ↔
      ((movieJob true).delivered movieAnswer → (movieJob true).works) :=
  doneOnDiskExactly (movieJob true) 4 32767 movieAnswer (movieEnd true) rfl (by decide) (movieRuns true) rfl

theorem lostReported : run (movieJob false).step {} movieAnswer = some (movieEnd false) ∧
    (movieEnd false).reported = some (.setbyId 32767 .ok) ∧ ¬(movieJob false).onDisk movieAnswer (movieEnd false) := by
  refine ⟨movieRuns false,rfl,?_⟩
  rintro ⟨path,known,moved,size⟩
  cases moved

end steps

end MipsElfExec.Getfile

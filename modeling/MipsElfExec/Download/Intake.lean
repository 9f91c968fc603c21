import MipsElfExec.Download.Resume
import MipsElfExec.Lib.Run

/-! A task from its request to the end of the response: one call of http_dl_recv_resp after the other, whatever
read(2) and write(2) return. A read that is offered no space returns 0, as it does when the peer has closed. -/
namespace MipsElfExec.Download
open CString Transducer Run

-- What a read meets at the socket; `full` stands for an open connection and a buffer without space.
inductive Arrival where
  | error | closed | full
  | bytes (b : Byte) (rest : Bytes)
  deriving DecidableEq, Repr

def Arrival.read : Arrival → ReadResult
  | .error => .error
  | .closed | .full => .data []
  | .bytes b rest => .data (b :: rest)

def Arrival.received : Arrival → Bytes
  | .bytes b rest => b :: rest
  | _ => []

def Arrival.possible (space : Nat) : Arrival → Bool
  | .error | .closed => true
  | .full => space = 0
  | .bytes _ rest => rest.length < space

structure Call where
  arrival : Arrival
  results : List WriteResult
  deriving DecidableEq, Repr

def received (es : List Call) : Bytes := es.flatMap fun e => e.arrival.received

structure Intake where
  info : Info
  file : File
  ret : Ret
  deriving DecidableEq, Repr

def Intake.next (s : Intake) (e : Call) : Info × File × Ret := httpDlRecvResp s.info s.file e.arrival.read e.results

def Intake.step (s : Intake) (e : Call) : Option Intake :=
  if s.ret = .again ∧ e.arrival.possible s.info.freeSpace then some ⟨(s.next e).1,(s.next e).2.1,(s.next e).2.2⟩ else none

def Intake.start (info : Info) (file : File) : Intake := ⟨info,file,.again⟩

structure Intake.Open (s : Intake) (pending : Bytes) : Prop where
  window : s.info.Window pending
  reading : s.info.Reading
  fd : 0 ≤ s.info.filefd
  plain : s.file.AtEnd

section step
variable {s t : Intake} {e : Call} {pending : Bytes}

theorem takeStep (next : s.step e = some t) : s.ret = .again ∧ e.arrival.possible s.info.freeSpace = true ∧
    t = ⟨(s.next e).1,(s.next e).2.1,(s.next e).2.2⟩ := by
  unfold Intake.step at next
  split at next
  · rename_i fine
    exact ⟨fine.1,fine.2,(Option.some.inj next).symm⟩
  · cases next

theorem flushKeeps (O : s.Open pending) (results : List WriteResult) :
    (httpDlFlushBufData s.info s.file results).1.bare = s.info.bare ∧
    (httpDlFlushBufData s.info s.file results).1.Ordered := by
  rcases Decidable.em (s.info.stage = .recvContent) with content | parsing
  · have flushed := flushTaken O.window content O.fd O.plain results
    exact ⟨flushed.bare,windowOrdered flushed.window⟩
  · unfold httpDlFlushBufData
    rw [if_pos parsing]
    exact ⟨rfl,windowOrdered (windowRewind O.window s.info.recvLen)⟩

theorem endNext (O : s.Open pending) (ends : e.arrival.read = .data []) :
    (s.next e).1.bare = s.info.bare ∧ (s.next e).1.Ordered ∧ (s.next e).2.2 ≠ .again := by
  have kept := flushKeeps O e.results
  unfold Intake.next
  rw [ends]
  exact ⟨kept.1,kept.2,Ret.noConfusion⟩

theorem readCalled (O : s.Open pending) {b : Byte} {rest : Bytes} (possible : rest.length < s.info.freeSpace)
    (results : List WriteResult) :
    Called (s.next ⟨.bytes b rest,results⟩) s.info s.file
      (Progress.machine.drain ⟨s.info.bare,[]⟩ (pending ++ b :: rest)) results ∧
    ∀ u ∈ httpDlPasses 3 (s.info.receive (b :: rest)) s.file results,u.Ordered :=
  recvCalled O.window O.reading O.fd O.plain results (List.cons_ne_nil b rest) possible

theorem calledOpen (O : s.Open pending) {b : Byte} {rest : Bytes} {results : List WriteResult} {r : Info × File × Ret}
    (called : Called r s.info s.file (Progress.machine.drain ⟨s.info.bare,[]⟩ (pending ++ b :: rest)) results)
    (going : (Progress.machine.drain ⟨s.info.bare,[]⟩ (pending ++ b :: rest)).1.info.stage ≠ .finish) :
    (⟨r.1,r.2.1,r.2.2⟩ : Intake).Open
      ((Progress.machine.drain ⟨s.info.bare,[]⟩ (pending ++ b :: rest)).1.body.drop
        (taken (Progress.machine.drain ⟨s.info.bare,[]⟩ (pending ++ b :: rest)).1.body.length results) ++
      (Progress.machine.drain ⟨s.info.bare,[]⟩ (pending ++ b :: rest)).2) := by
  obtain ⟨_,bare,window,_,plain,_⟩ := called.going going
  have reading := (drainReading (s := ⟨s.info.bare,[]⟩) O.reading (pending ++ b :: rest)).resolve_right going
  have fd := drainKeeps ⟨s.info.bare,[]⟩ (pending ++ b :: rest)
  rw [← bare] at reading fd
  exact ⟨window,reading,(show r.1.filefd = s.info.filefd from fd).symm ▸ O.fd,plain⟩

end step

def Intake.passes (s : Intake) (e : Call) : List Info :=
  match e.arrival with
  | .bytes b rest => httpDlPasses 3 (s.info.receive (b :: rest)) s.file e.results
  | _ => []

structure Disciplined (s t : Intake) (e : Call) : Prop where
  before : s.info.Ordered
  passes : ∀ u ∈ s.passes e,u.Ordered
  after : t.info.Ordered
  offered : 0 < s.info.freeSpace
  peer : e.arrival.read = .data [] → e.arrival = .closed

structure Gauge where
  intake : Intake
  head : Info
  waiting : Bytes

def Gauge.settle (w : Gauge) (e : Call) : Info × Bytes :=
  match e.arrival with
  | .bytes b rest =>
    let d := Progress.machine.drain ⟨w.head,[]⟩ (w.waiting ++ b :: rest)
    (d.1.info,d.1.body.drop (taken d.1.body.length e.results) ++ d.2)
  | _ => (w.head,w.waiting)

def Gauge.step (w : Gauge) (e : Call) : Option Gauge := (w.intake.step e).map fun t => ⟨t,(w.settle e).1,(w.settle e).2⟩

def Gauge.start (info : Info) (file : File) : Gauge := ⟨Intake.start info file,info.bare,[]⟩

structure Gauge.True (w : Gauge) : Prop where
  open_ : w.intake.Open w.waiting
  head : w.head = w.intake.info.bare
  space : w.waiting.length < httpDlReadbufLen → 0 < w.intake.info.freeSpace

section gauge
variable {w v : Gauge} {e : Call}

theorem spaceShort (T : w.True) : 0 < w.intake.info.freeSpace ↔ w.waiting.length < httpDlReadbufLen := by
  refine ⟨fun space => ?_,T.space⟩
  have len := (windowData T.open_.window).2.2
  unfold Info.freeSpace at space
  omega

theorem gaugeStep (inv : w.intake.ret = .again → w.True) (next : w.step e = some v) :
    (Disciplined w.intake v.intake e ↔ w.waiting.length < httpDlReadbufLen) ∧
      (Disciplined w.intake v.intake e → v.intake.ret = .again → v.True) := by
  obtain ⟨t,stepped,rfl⟩ := Option.map_eq_some_iff.mp next
  obtain ⟨again,possible,rfl⟩ := takeStep stepped
  have T := inv again
  rw [← spaceShort T]
  have before := windowOrdered T.open_.window
  have exact_ {t : Intake} (passes : ∀ u ∈ w.intake.passes e,u.Ordered) (after : t.info.Ordered)
      (peer : 0 < w.intake.info.freeSpace → e.arrival.read = .data [] → e.arrival = .closed) :
      Disciplined w.intake t e ↔ 0 < w.intake.info.freeSpace :=
    ⟨fun disciplined => disciplined.offered,fun space => ⟨before,passes,after,space,peer space⟩⟩
  have quiet (none_ : w.intake.passes e = []) : ∀ u ∈ w.intake.passes e,u.Ordered :=
    fun u mem => absurd (none_ ▸ mem) List.not_mem_nil
  obtain ⟨arrival,results⟩ := e
  cases arrival with
  | error =>
    have ends : (w.intake.next ⟨.error,results⟩).2.2 ≠ .again := Ret.noConfusion
    exact ⟨exact_ (quiet rfl) before fun _ => nofun,fun _ going => absurd going ends⟩
  | closed =>
    obtain ⟨_,ordered,ends⟩ := @endNext w.intake ⟨.closed,results⟩ w.waiting T.open_ rfl
    exact ⟨exact_ (quiet rfl) ordered fun _ _ => rfl,fun _ going => absurd going ends⟩
  | full =>
    have none_ : w.intake.info.freeSpace = 0 := of_decide_eq_true possible
    obtain ⟨_,ordered,ends⟩ := @endNext w.intake ⟨.full,results⟩ w.waiting T.open_ rfl
    exact ⟨exact_ (quiet rfl) ordered fun space => absurd space (by omega),fun _ going => absurd going ends⟩
  | bytes b rest =>
    have fits : rest.length < w.intake.info.freeSpace := of_decide_eq_true possible
    obtain ⟨called,passes⟩ := readCalled T.open_ fits results
    rcases Decidable.em ((Progress.machine.drain ⟨w.intake.info.bare,[]⟩ (w.waiting ++ b :: rest)).1.info.stage = .finish)
      with finished | going
    · obtain ⟨ret,_,_,_,ordered,_⟩ := called.failed finished
      refine ⟨exact_ passes ordered fun _ => nofun,fun _ going => ?_⟩
      exact absurd (ret.symm.trans going) (by decide)
    · obtain ⟨_,bare,window,_,_,space⟩ := called.going going
      refine ⟨exact_ passes (windowOrdered window) fun _ => nofun,fun _ _ => ?_⟩
      unfold Gauge.settle
      dsimp only
      rw [T.head]
      exact ⟨calledOpen T.open_ called going,bare.symm,space⟩

theorem startTrue {info : Info} {file : File} (fresh : info.Fresh) (plain : file.AtEnd) : (Gauge.start info file).True := by
  have start := freshWaiting fresh
  exact ⟨⟨start.window,start.reading,start.fd,plain⟩,rfl,start.space⟩

end gauge

/-- The pointers of the read buffer stay in order in every run. Every read is offered space, and finds the end of the
stream only where the peer has closed, exactly as long as no call meets a buffer's worth of bytes that wait. -/
theorem readDisciplinedExactly {info : Info} {file : File} (fresh : info.Fresh) (plain : file.AtEnd) (es : List Call) :
    Along Gauge.step (fun w e v => Disciplined w.intake v.intake e) (Gauge.start info file) es ↔
      Along Gauge.step (fun w _ _ => w.waiting.length < httpDlReadbufLen) (Gauge.start info file) es :=
  alongStepExact (I := fun w => w.intake.ret = .again → w.True) (fun inv next => gaugeStep inv next)
    fun _ => startTrue fresh plain

theorem readDisciplinedReply : Along Gauge.step (fun w e v => Disciplined w.intake v.intake e)
    (Gauge.start freshInfo ⟨[],false,0⟩) [⟨.bytes 72 (ascii "TTP/1.0 200 OK"),[]⟩] :=
  (readDisciplinedExactly freshInfoFresh (.inr rfl) _).mpr fun _ _ => ⟨(by decide : 0 < httpDlReadbufLen),trivial⟩

theorem settleStuck {w : Gauge} {b : Byte} {rest : Bytes} (parsing : w.head.stage = .parseStatusLine)
    (open_ : (10 : Byte) ∉ w.waiting ++ b :: rest) (results : List WriteResult) :
    w.settle ⟨.bytes b rest,results⟩ = (w.head,w.waiting ++ b :: rest) := by
  have none_ : lineEnd (w.waiting ++ b :: rest) = none :=
    searchNoLf fun mem => open_ (List.mem_of_mem_take ((cstrPrefix _).mem mem))
  have idle : Progress.machine.step ⟨w.head,[]⟩ (w.waiting ++ b :: rest) = none := by
    simp only [Progress.machine,Progress.step,parsing,none_,Option.map_none]
  have nothing : taken ([] : Bytes).length results = 0 := takenNone results
  unfold Gauge.settle
  dsimp only
  rw [drainIdle Progress.machine idle]
  dsimp only
  rw [nothing]
  rfl

theorem gaugeNext {w : Gauge} {e : Call} (again : w.intake.ret = .again)
    (possible : e.arrival.possible w.intake.info.freeSpace = true) :
    w.step e = some ⟨⟨(w.intake.next e).1,(w.intake.next e).2.1,(w.intake.next e).2.2⟩,(w.settle e).1,(w.settle e).2⟩ := by
  unfold Gauge.step Intake.step
  rw [if_pos ⟨again,possible⟩]
  rfl

theorem lineFills {w : Gauge} (T : w.True) (again : w.intake.ret = .again) {b : Byte} {rest : Bytes}
    (parsing : w.head.stage = .parseStatusLine) (open_ : (10 : Byte) ∉ w.waiting ++ b :: rest)
    (fits : rest.length < w.intake.info.freeSpace) (whole : (w.waiting ++ b :: rest).length = httpDlReadbufLen)
    (results results' : List WriteResult) :
    ¬Along Gauge.step (fun w e v => Disciplined w.intake v.intake e) w [⟨.bytes b rest,results⟩,⟨.full,results'⟩] := by
  intro along
  have waits := settleStuck parsing open_ results
  obtain ⟨called,_⟩ := readCalled T.open_ fits results
  have going : (Progress.machine.drain ⟨w.intake.info.bare,[]⟩ (w.waiting ++ b :: rest)).1.info.stage ≠ .finish := by
    rw [← T.head]
    change (w.settle ⟨.bytes b rest,results⟩).1.stage ≠ .finish
    rw [waits]
    exact fun bad => Stage.noConfusion (parsing.symm.trans bad)
  have ret := (called.going going).1
  have next := gaugeNext (e := ⟨.bytes b rest,results⟩) again (decide_eq_true fits)
  obtain ⟨first,last⟩ := along _ next
  have T' := (gaugeStep (fun _ => T) next).2 first ret
  rw [waits] at T' last
  have none_ : (w.intake.next ⟨.bytes b rest,results⟩).1.freeSpace = 0 := by
    have space := spaceShort T'
    dsimp only at space
    omega
  obtain ⟨second,_⟩ := last _ (gaugeNext ret (decide_eq_true none_))
  exact absurd second.offered (Nat.not_lt.mpr none_.le)

theorem readFull : ¬Along Gauge.step (fun w e v => Disciplined w.intake v.intake e)
    (Gauge.start freshInfo ⟨[],false,0⟩) [⟨.bytes 65 (List.replicate 4095 65),[]⟩,⟨.full,[]⟩] := by
  refine lineFills (startTrue freshInfoFresh (.inr rfl)) rfl rfl ?_ ?_ ?_ [] []
  · intro mem
    exact absurd (List.eq_of_mem_replicate (n := 4096) (a := 65) mem) (by decide)
  · rw [List.length_replicate]
    decide
  · exact List.length_replicate (n := 4096) (a := (65 : Byte))

end MipsElfExec.Download

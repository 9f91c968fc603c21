import MipsElfExec.Download.Refine

/-! A whole response: reads that leave the task waiting, then the one that ends it.
How the stream was cut into reads does not show in what the task ends with. -/
namespace MipsElfExec.Download
open CString Transducer

structure Info.Waiting (info : Info) (pending : Bytes) : Prop where
  window : info.Window pending
  reading : info.Reading
  fd : 0 ≤ info.filefd
  space : pending.length < httpDlReadbufLen → 0 < info.freeSpace
  idle : Progress.step ⟨info.bare,[]⟩ pending = none

inductive Transfer : Info → File → Bytes → Info → File → Prop where
  | done {info file} : Transfer info file [] info file
  | read {info file chunk results info' file' rest last out}
      (some_ : chunk ≠ []) (fits : chunk.length ≤ info.freeSpace) (ok : ∀ r ∈ results,WriteResult.Succeeds r)
      (event : httpDlRecvResp info file (.data chunk) results = (info',file',.again))
      (more : Transfer info' file' rest last out) : Transfer info file (chunk ++ rest) last out

inductive Outcome where
  | statusError | eof
  deriving DecidableEq, Repr

-- read(2) returns 0 at the end of the stream, and also when it is offered no space.
inductive Ends : Info → File → Bytes → Outcome → Info → File → Prop where
  | eof {info file results} (ok : ∀ r ∈ results,WriteResult.Succeeds r) : Ends info file [] .eof
      (httpDlRecvResp info file (.data []) results).1 (httpDlRecvResp info file (.data []) results).2.1
  | full {info file rest results} (ok : ∀ r ∈ results,WriteResult.Succeeds r) (none_ : info.freeSpace = 0) :
      Ends info file rest .eof
        (httpDlRecvResp info file (.data []) results).1 (httpDlRecvResp info file (.data []) results).2.1
  | failed {info file chunk rest results info' file'} (some_ : chunk ≠ []) (fits : chunk.length ≤ info.freeSpace)
      (ok : ∀ r ∈ results,WriteResult.Succeeds r)
      (event : httpDlRecvResp info file (.data chunk) results = (info',file',.ok)) :
      Ends info file (chunk ++ rest) .statusError info' file'

def Delivers (info : Info) (file : File) (stream : Bytes) (how : Outcome) (info' : Info) (file' : File) : Prop :=
  ∃ sent rest mid out,stream = sent ++ rest ∧ Transfer info file sent mid out ∧ Ends mid out rest how info' file'

theorem handledWaiting {info : Info} {file : File} {chunk pending results} (start : info.Waiting pending)
    (h : Handled (httpDlRecvResp info file (.data chunk) results) file
      (Progress.machine.drain ⟨info.bare,[]⟩ (pending ++ chunk)))
    (going : (Progress.machine.drain ⟨info.bare,[]⟩ (pending ++ chunk)).1.info.stage ≠ .finish) :
    (httpDlRecvResp info file (.data chunk) results).1.Waiting
      (Progress.machine.drain ⟨info.bare,[]⟩ (pending ++ chunk)).2 := by
  obtain ⟨_,bare,window,_,_,space⟩ := h.going going
  have reading := (drainReading (s := ⟨info.bare,[]⟩) start.reading (pending ++ chunk)).resolve_right going
  have fd := drainKeeps ⟨info.bare,[]⟩ (pending ++ chunk)
  have stuck := drainStuck Progress.machine ⟨info.bare,[]⟩ (pending ++ chunk)
  generalize Progress.machine.drain ⟨info.bare,[]⟩ (pending ++ chunk) = d at bare window reading fd space stuck ⊢
  rw [← bare] at reading fd
  refine ⟨window,reading,?_,space,?_⟩
  · change 0 ≤ (httpDlRecvResp info file (.data chunk) results).1.bare.filefd
    rw [fd]
    exact start.fd
  · rw [bare]
    have blind := stepBody ⟨d.1.info,[]⟩ d.1.body d.2
    simp only [List.append_nil] at blind
    exact Option.map_eq_none_iff.mp (blind.symm.trans stuck)

theorem transferRefines {info file sent mid out} (path : Transfer info file sent mid out) {pending}
    (start : info.Waiting pending) (plain : file.AtEnd) :
    mid.Waiting (Progress.machine.drain ⟨info.bare,[]⟩ (pending ++ sent)).2 ∧
    mid.bare = (Progress.machine.drain ⟨info.bare,[]⟩ (pending ++ sent)).1.info ∧
    out.content = file.content ++ (Progress.machine.drain ⟨info.bare,[]⟩ (pending ++ sent)).1.body ∧
    out.AtEnd := by
  induction path generalizing pending with
  | done =>
    rw [List.append_nil,drainIdle Progress.machine start.idle]
    exact ⟨start,rfl,(List.append_nil _).symm,plain⟩
  | @read info file chunk results info' file' rest last out some_ fits ok event more ih =>
    have handled := recvHandled start.window start.reading start.fd plain ok some_ fits
    rw [event] at handled
    have going : (Progress.machine.drain ⟨info.bare,[]⟩ (pending ++ chunk)).1.info.stage ≠ .finish := by
      intro bad
      exact Ret.noConfusion (handled.failed bad).1
    have waiting := handledWaiting start (event ▸ handled) going
    rw [event] at waiting
    obtain ⟨_,bare,_,written,still,_⟩ := handled.going going
    obtain ⟨next,bare',written',still'⟩ := ih waiting still
    rw [← List.append_assoc,drainSplit]
    rw [bare] at next bare' written'
    refine ⟨next,bare',?_,still'⟩
    rw [written',written,List.append_assoc]

theorem flushIdle {info : Info} {pending} (start : info.Waiting pending) (file : File) (results) :
    (httpDlFlushBufData info file results).1.bare = info.bare ∧
    (httpDlFlushBufData info file results).2.1 = file := by
  obtain ⟨data,order,_⟩ := windowData start.window
  unfold httpDlFlushBufData
  split
  · exact ⟨rfl,rfl⟩
  · rename_i content
    have stage : info.stage = .recvContent := not_ne_iff.mp content
    have empty : pending = [] := by
      have idle := start.idle
      simp only [Progress.step,Info.bare,stage] at idle
      split at idle
      · rfl
      · contradiction
    rw [if_neg (Nat.not_lt.mpr order),data,if_pos empty]
    exact ⟨rfl,rfl⟩

theorem fullStuck {info : Info} {pending} (start : info.Waiting pending) (none_ : info.freeSpace = 0) (rest : Bytes) :
    Progress.step ⟨info.bare,[]⟩ (pending ++ rest) = none := by
  have whole : pending.length = httpDlReadbufLen := by
    have room := windowSize start.window
    have space := start.space
    omega
  have same : lineEnd (pending ++ rest) = lineEnd pending := by
    unfold lineEnd
    rw [← whole,List.take_left,List.take_length]
  have idle := start.idle
  simp only [Progress.step] at idle ⊢
  split at idle
  · rw [same]
    exact Option.map_eq_none_iff.mpr (Option.map_eq_none_iff.mp idle)
  · rw [same]
    exact Option.map_eq_none_iff.mpr (Option.map_eq_none_iff.mp idle)
  · split at idle
    · simp [httpDlReadbufLen] at whole
    · contradiction
  · rfl

structure Report where
  how : Outcome
  statusCode : Int
  errMsg : Bytes
  contentLen : Int
  totalLen : Int
  content : Bytes
  deriving DecidableEq, Repr

def report (how : Outcome) (info : Info) (file : File) : Report :=
  ⟨how,info.statusCode,info.errMsg,info.contentLen,info.totalLen,file.content⟩

def Progress.report (s : Progress) (content : Bytes) : Report :=
  ⟨if s.info.stage = .finish then .statusError else .eof,s.info.statusCode,s.info.errMsg,s.info.contentLen,
    s.info.totalLen,content ++ s.body⟩

theorem stepFinish {s : Progress} (finished : s.info.stage = .finish) (more : Bytes) : s.step more = none := by
  simp only [Progress.step,finished]

theorem idleReport {info : Info} {file : File} {pending rest results} (start : info.Waiting pending)
    (stuck : Progress.step ⟨info.bare,[]⟩ (pending ++ rest) = none) :
    report .eof (httpDlRecvResp info file (.data []) results).1 (httpDlRecvResp info file (.data []) results).2.1 =
      (Progress.machine.drain ⟨info.bare,[]⟩ (pending ++ rest)).1.report file.content := by
  obtain ⟨bare,same⟩ := flushIdle start file results
  have parsing : info.bare.stage ≠ .finish := by
    rcases start.reading with h | h | h <;> simp [Info.bare,h]
  rw [drainIdle Progress.machine stuck]
  rw [← bare] at parsing ⊢
  simp only [Progress.report,if_neg parsing,List.append_nil,httpDlRecvResp,report,same]
  rfl

theorem endsRefines {info file rest how last out} (final : Ends info file rest how last out) {pending}
    (start : info.Waiting pending) (plain : file.AtEnd) :
    report how last out =
      (Progress.machine.drain ⟨info.bare,[]⟩ (pending ++ rest)).1.report file.content := by
  cases final with
  | eof ok => exact idleReport start (by rw [List.append_nil]; exact start.idle)
  | full ok none_ => exact idleReport start (fullStuck start none_ rest)
  | @failed chunk rest results _ _ some_ fits ok event =>
    have handled := recvHandled start.window start.reading start.fd plain ok some_ fits
    rw [event] at handled
    have finished : (Progress.machine.drain ⟨info.bare,[]⟩ (pending ++ chunk)).1.info.stage = .finish := by
      refine Decidable.byContradiction fun going => ?_
      exact Ret.noConfusion (handled.going going).1
    obtain ⟨_,bare,same,empty⟩ := handled.failed finished
    rw [← List.append_assoc,drainSplit]
    dsimp only
    rw [drainIdle Progress.machine (stepFinish (s := ⟨_,[]⟩) finished _)]
    simp only [Progress.report,empty,List.append_nil,← bare,if_true]
    simp only [report]
    rw [← same]
    rfl

theorem deliversRefines {info file stream how last out} (path : Delivers info file stream how last out) {pending}
    (start : info.Waiting pending) (plain : file.AtEnd) :
    report how last out =
      (Progress.machine.drain ⟨info.bare,[]⟩ (pending ++ stream)).1.report file.content := by
  obtain ⟨sent,rest,mid,between,same,first,final⟩ := path
  obtain ⟨waiting,bare,written,still⟩ := transferRefines first start plain
  have ends := endsRefines final waiting still
  rw [ends,same,← List.append_assoc,drainSplit info.bare (pending ++ sent) rest,bare,written]
  unfold Progress.report
  dsimp only
  rw [List.append_assoc]

theorem deliveryExists {info file pending} (start : info.Waiting pending) (plain : file.AtEnd) (stream : Bytes)
    (size : Nat) (positive : 0 < size) : ∃ how last out,Delivers info file stream how last out := by
  induction count : stream.length using Nat.strongRecOn generalizing info file pending stream with
  | ind total ih =>
    have clean : ∀ r ∈ ([] : List WriteResult),r.Succeeds := by simp
    rcases stream with _ | ⟨b,rest⟩
    · exact ⟨_,_,_,[],[],info,file,rfl,.done,.eof clean⟩
    · rcases Nat.eq_zero_or_pos info.freeSpace with none_ | room
      · exact ⟨_,_,_,[],_,info,file,rfl,.done,.full clean none_⟩
      · let chunk := (b :: rest).take (min size info.freeSpace)
        have long : 0 < chunk.length := by
          simp only [chunk,List.length_take,List.length_cons]
          omega
        have some_ : chunk ≠ [] := List.length_pos_iff.mp long
        have fits : chunk.length ≤ info.freeSpace := by
          simp only [chunk,List.length_take]
          omega
        have cut : b :: rest = chunk ++ (b :: rest).drop (min size info.freeSpace) :=
          (List.take_append_drop _ _).symm
        have shorter : ((b :: rest).drop (min size info.freeSpace)).length < total := by
          have both := congrArg List.length cut
          rw [List.length_append] at both
          omega
        have handled := recvHandled start.window start.reading start.fd plain clean some_ fits
        rcases Decidable.em ((Progress.machine.drain ⟨info.bare,[]⟩ (pending ++ chunk)).1.info.stage = .finish)
          with finished | going
        · have event := (handled.failed finished).1
          refine ⟨.statusError,(httpDlRecvResp info file (.data chunk) []).1,
            (httpDlRecvResp info file (.data chunk) []).2.1,[],_,info,file,rfl,.done,?_⟩
          rw [cut]
          exact .failed some_ fits clean (Prod.ext rfl (Prod.ext rfl event))
        · obtain ⟨event,_,_,_,still,_⟩ := handled.going going
          obtain ⟨how,last,out,sent,left,mid,between,same,path,final⟩ :=
            ih _ shorter (handledWaiting start handled going) still _ rfl
          refine ⟨how,last,out,chunk ++ sent,left,mid,between,?_,?_,final⟩
          · rw [cut,same,List.append_assoc]
          · exact .read some_ fits clean (Prod.ext rfl (Prod.ext rfl event)) path

structure Info.Fresh (info : Info) : Prop where
  stage : info.stage = .parseStatusLine
  bufData : info.bufData = 0
  bufTail : info.bufTail = 0
  size : httpDlReadbufLen < info.buf.length
  fd : 0 ≤ info.filefd

theorem freshWaiting {info : Info} (fresh : info.Fresh) : info.Waiting [] := by
  have size := fresh.size
  obtain ⟨g,more,rest⟩ := List.exists_cons_of_length_pos (l := info.buf) (by omega)
  refine ⟨⟨[],g,more,rest,fresh.bufData.symm,fresh.bufTail.symm,?_,size⟩,Or.inl fresh.stage,fresh.fd,?_,?_⟩
  · rw [fresh.bufTail]
    exact Nat.zero_le _
  · intro _
    rw [Info.freeSpace,fresh.bufTail]
    decide
  · have stage : info.bare.stage = .parseStatusLine := fresh.stage
    simp only [Progress.step,stage]
    rfl

def freshInfo : Info :=
  ⟨.parseStatusLine,false,false,ascii "a.cn",ascii "/f",80,4,3,List.replicate 4100 0,0,0,0,0,0,0,0,[]⟩

theorem freshInfoFresh : freshInfo.Fresh :=
  ⟨rfl,rfl,rfl,by rw [freshInfo,List.length_replicate]; decide,by decide⟩

/-- Two deliveries of one response stream end in the same way, with the same report
and the same file, however the stream was cut into reads and the body into writes. -/
theorem chunkInvariance {info file pending stream how last out how' last' out'} (start : info.Waiting pending)
    (plain : file.AtEnd) (one : Delivers info file stream how last out)
    (two : Delivers info file stream how' last' out') :
    how = how' ∧ last.statusCode = last'.statusCode ∧ last.errMsg = last'.errMsg ∧
    last.contentLen = last'.contentLen ∧ last.totalLen = last'.totalLen ∧ out.content = out'.content := by
  have same := (deliversRefines one start plain).trans (deliversRefines two start plain).symm
  exact ⟨congrArg Report.how same,congrArg Report.statusCode same,congrArg Report.errMsg same,
    congrArg Report.contentLen same,congrArg Report.totalLen same,congrArg Report.content same⟩

def shortReply : Bytes := ascii "HTTP/1.0 200 OK" ++ crlf ++ crlf ++ ascii "abc"

theorem chunkInvarianceBytewise : ∃ how last out last' out',
    Delivers freshInfo ⟨[],false,0⟩ shortReply how last out ∧
    Delivers freshInfo ⟨[],false,0⟩ shortReply how last' out' ∧
    last.statusCode = last'.statusCode ∧ out.content = out'.content := by
  have start := freshWaiting freshInfoFresh
  have plain : (File.mk [] false 0).AtEnd := Or.inr rfl
  obtain ⟨how,last,out,one⟩ := deliveryExists start plain shortReply 1 (by decide)
  obtain ⟨how',last',out',two⟩ := deliveryExists start plain shortReply 16 (by decide)
  have same := chunkInvariance start plain one two
  exact ⟨how,last,out,last',out',one,same.1 ▸ two,same.2.1,same.2.2.2.2.2⟩

end MipsElfExec.Download

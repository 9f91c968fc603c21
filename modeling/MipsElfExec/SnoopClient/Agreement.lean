import MipsElfExec.SnoopClient.Ownership
import MipsElfExec.SnoopClient.RoundTrip

/-! A run on the memory that succeeds gives the playlist that the parser of texts gives: the objects hold its values. -/
namespace MipsElfExec.SnoopClient.Memory
open CString Access

def Stream.view (stream : Stream) : StreamInfo := ⟨stream.type,stream.streamfileids,stream.seed,stream.segs.map Segment.info⟩

section loops
variable {granted : Nat → Bool}

theorem idsAgree {left : Nat} {ret next : Bytes} {streams made : List Stream} {h : Heap}
    (run : Meets (fileIdsLoop granted left ret streams h) fun r => r.1 = some next ∧ r.2.1 = made) :
    SnoopClient.fileIdsLoop left ret (streams.map Stream.view) = some (next,made.map Stream.view) := by
  induction left generalizing ret streams h with
  | zero => simp [fileIdsLoop] at run
  | succ left ih =>
    unfold fileIdsLoop at run
    obtain ⟨-,run⟩ := typeRule.mp ((meetsBind _ _).mp run)
    unfold SnoopClient.fileIdsLoop
    cases here : typeAt ret with
    | none =>
      simp only [here,meetsBind,meetsMemcmp,meetsIf,meetsPure,reduceCtorEq,false_and] at run
      split at run
      · rename_i mark
        obtain ⟨-,⟨rfl⟩,rfl⟩ := run
        simp [mark]
      · exact run.2.elim
    | some type =>
      simp only [here,ykCreateStreamInfo,mallocRuns] at run
      cases grants : granted h.calls with
      | false => simp [grants] at run
      | true =>
        simp only [grants,if_true,meetsBind,meetsCopyTo] at run
        simpa [Stream.view] using ih run.2.2

theorem passAgrees {owner : Nat} {stop ret next copy : Bytes} {segs made : List Segment} {h : Heap}
    {store : Segment → Bytes → Heap → Checked (Option Bytes × List Segment × Heap)} (text : ret ≠ [] → Terminated ret)
    (copied : (ret.takeWhile (· != 125)).take ykSegInfoLen = copy)
    (run : Meets (segPass granted owner (some stop) ret segs h store) fun r => r.1 = some next ∧ r.2.1 = made) :
    (¬stop.length < ret.length ∧ next = ret ∧ made = segs) ∨ stop.length < ret.length ∧ ∃ p values h',
      SnoopClient.ykCreateSegmentInfo (copy ++ List.replicate (ykSegInfoLen - copy.length) 0) = some values ∧
      Meets (store ⟨p,some owner,values⟩ (ret.drop (copy.length + ykTokenLenSegEnd)) h') fun r =>
        r.1 = some next ∧ r.2.1 = made := by
  unfold segPass at run
  split at run
  · rename_i before
    have text := text (by rintro rfl; simp [isBefore] at before)
    refine .inr ⟨by simpa [isBefore] using before,?_⟩
    obtain ⟨short,run⟩ := (meetsScan _ _ _).mp ((meetsBind _ _).mp run)
    rw [meetsBind,copyRule text ((List.take_prefix _ _).trans (List.takeWhile_prefix _)) short,copied] at run
    cases grants : granted h.calls with
    | false => simp [grants] at run
    | true =>
      rw [if_pos grants] at run
      cases created : SnoopClient.ykCreateSegmentInfo (copy ++ List.replicate (ykSegInfoLen - copy.length) 0) with
      | none => simp [created] at run
      | some values => exact ⟨h.calls,values,h.take,rfl,by simpa [created] using run.2.2⟩
  · rename_i behind
    exact .inl ⟨by simpa [isBefore] using behind,by simpa [eq_comm] using run⟩

theorem segsAgree {owner room cnt : Nat} {stop ret next : Bytes} {segs made : List Segment} {h : Heap}
    (text : ret ≠ [] → Terminated ret) (places : cnt + room = ykStreamSegsMax)
    (run : Meets (segsLoop granted owner (some stop) room ret segs cnt h) fun r => r.1 = some next ∧ r.2.1 = made) :
    SnoopClient.segsLoop stop room ret (segs.map Segment.info) cnt = some (next,made.map Segment.info) := by
  induction room generalizing ret segs cnt h with
  | zero =>
    rcases passAgrees text rfl run with ⟨behind,rfl,rfl⟩ | ⟨-,_,_,_,-,stored⟩
    · simp [SnoopClient.segsLoop,behind]
    · simp at stored
  | succ room ih =>
    rcases passAgrees text rfl run with ⟨behind,rfl,rfl⟩ | ⟨before,p,values,h',created,stored⟩
    · simp [SnoopClient.segsLoop,behind]
    · rw [if_neg (by omega)] at stored
      have rest := ih (fun some_ => ?_) (by omega) stored
      · simp only [SnoopClient.segsLoop,before,if_true,created]
        simpa [segStore,SnoopClient.segStore] using rest
      · refine terminatedSuffix (text ?_) (List.drop_suffix _ _) some_
        rintro rfl
        cases before

theorem listAgrees {stream : Stream} {cur next : Bytes} {made : List Segment} {h : Heap} (text : cur ≠ [] → Terminated cur)
    (run : Meets (ykParsePlSegsDo granted cur stream h) fun r => r.1 = some next ∧ r.2.1 = made) :
    SnoopClient.ykParsePlSegsDo cur stream.view = some (next,{ stream with segs := made }.view) := by
  simp only [ykParsePlSegsDo,meetsBind,meetsStrchr,meetsPure] at run
  obtain ⟨inside,⟨behind,segs,h'⟩,ends,left,rfl⟩ := run
  obtain ⟨behind,rfl,rfl⟩ := Option.map_eq_some_iff.mp left
  have text := terminatedSuffix (text (by rintro rfl; simp at inside)) (List.drop_suffix ykTokenLenType cur)
    (List.ne_nil_of_mem inside)
  unfold SnoopClient.ykParsePlSegsDo
  cases stop : strchr (cur.drop ykTokenLenType) 93 with
  | none =>
    rw [stop] at ends
    have whole : (cur.drop ykTokenLenType,stream.segs,h) = (behind,segs,h') := by
      simpa [segsLoop,ykStreamSegsMax,segPass,isBefore] using ends
    cases whole
    simp only [stop,segsEnded (Nat.le_refl _),Option.map_some,Stream.view]
  | some k =>
    rw [stop] at ends
    simp only [stop,Stream.view]
    rewrite [segsAgree (fun _ => text) (Nat.zero_add _) ⟨_,ends,rfl,rfl⟩]
    rfl

theorem loopSuffix {stop ret next : Bytes} {room cnt : Nat} {segs made : List SegmentInfo}
    (run : SnoopClient.segsLoop stop room ret segs cnt = some (next,made)) : next <:+ ret := by
  induction room generalizing ret segs cnt with
  | zero =>
    unfold SnoopClient.segsLoop at run
    split at run
    · cases run
    · cases run
      exact List.suffix_rfl
  | succ room ih =>
    unfold SnoopClient.segsLoop at run
    split at run
    · dsimp only at run
      split at run
      · cases run
      · exact (ih run).trans (List.drop_suffix _ _)
    · cases run
      exact List.suffix_rfl

theorem listSuffix {cur next : Bytes} {stream made : StreamInfo} (run : SnoopClient.ykParsePlSegsDo cur stream = some (next,made)) :
    next <:+ cur.drop ykTokenLenType := by
  obtain ⟨⟨ret,segs⟩,loop,same⟩ := Option.map_eq_some_iff.mp run
  cases same
  exact (List.drop_suffix _ _).trans (loopSuffix loop)

theorem listsAgree {fuel enough : Nat} {ret next : Bytes} {streams made : List Stream} {h : Heap}
    (text : ret ≠ [] → Terminated ret) (long : ret.length ≤ enough)
    (run : Meets (plSegsLoop granted fuel ret streams h) fun r => r.1 = some next ∧ r.2.1 = made) :
    SnoopClient.plSegsLoop enough ret (streams.map Stream.view) = some (next,made.map Stream.view) := by
  induction fuel generalizing enough ret streams h with
  | zero => simp [plSegsLoop] at run
  | succ fuel ih =>
    unfold plSegsLoop at run
    obtain ⟨bytes,run⟩ := typeRule.mp ((meetsBind _ _).mp run)
    obtain ⟨enough,rfl⟩ : ∃ more,enough = more + 1 := ⟨enough - 1,by omega⟩
    unfold SnoopClient.plSegsLoop
    cases here : typeAt ret with
    | none =>
      simp only [here,meetsBind,meetsMemcmp,meetsIf,meetsPure,reduceCtorEq,false_and] at run
      split at run
      · rename_i mark
        obtain ⟨-,⟨rfl⟩,rfl⟩ := run
        simp [mark]
      · exact run.2.elim
    | some type =>
      simp only [here] at run
      have find : SnoopClient.ykFindStreamInfo (streams.map Stream.view) type = ykFindStreamInfo streams type :=
        List.findIdx?_map ..
      cases found : ykFindStreamInfo streams type with
      | none => simp [found] at run
      | some i =>
        cases place : streams[i]? with
        | none => simp [found,place] at run
        | some stream =>
          simp only [found,place,Option.bind_some,Option.map_some,meetsBind] at run
          obtain ⟨⟨cur,segs,h'⟩,ends,rest⟩ := run
          cases cur with
          | none => simp at rest
          | some cur =>
            have list := listAgrees text ⟨_,ends,rfl,rfl⟩
            have suffix := (listSuffix list).trans (List.drop_suffix _ _)
            have shorter := (listSuffix list).length_le
            rw [List.length_drop] at shorter
            have skip : ykTokenLenType = 6 := rfl
            have few : cur.length ≤ enough := by omega
            have lists := ih (fun some_ => terminatedSuffix (text (by rintro rfl; cases bytes)) suffix some_) few rest
            simpa [find,found,place,list,List.map_set] using lists

theorem idsTextAgree {cur next : Bytes} {made : List Stream} {h h' : Heap}
    (run : ykParsePlStreamfileids granted cur h = .ok (some next,made,h')) :
    SnoopClient.ykParsePlStreamfileids cur = some (next,made.map Stream.view) := by
  have runs : Meets (ykParsePlStreamfileids granted cur h) fun r => r.1 = some next ∧ r.2.1 = made := ⟨_,run,rfl,rfl⟩
  unfold ykParsePlStreamfileids at runs
  rw [meetsBind,meetsStrstr] at runs
  obtain ⟨-,runs⟩ := runs
  unfold SnoopClient.ykParsePlStreamfileids after
  cases place : strstr cur (ascii "streamfileids") with
  | none => simp [place] at runs
  | some k =>
    simp only [place,Option.map_some,List.drop_drop] at runs
    simpa using idsAgree runs

theorem idsRest {cur next : Bytes} {made : List Stream} {h h' : Heap} (text : Terminated cur)
    (run : ykParsePlStreamfileids granted cur h = .ok (some next,made,h')) : Terminated next := by
  have tail := meetsRun (@idsRule granted (fun _ _ _ => True) cur text h (fun _ => True) trivial fun _ _ _ _ _ _ _ => Iff.rfl)
    (@idsRule granted (fun _ _ _ => True) cur text h (fun r => ∀ c ∈ r.1,c ≠ [] ∧ c <:+ cur) (by simp)
      fun _ _ _ _ _ _ tail => iff_true_intro fun c mem => ⟨(tail c mem).1,(tail c mem).2.1⟩) run
  exact terminatedSuffix text (tail next rfl).2 (tail next rfl).1

theorem segsTextAgree {cur next : Bytes} {streams made : List Stream} {h h' : Heap} (text : Terminated cur)
    (run : ykParsePlSegs granted cur streams h = .ok (some next,made,h')) :
    SnoopClient.ykParsePlSegs cur (streams.map Stream.view) = some (next,made.map Stream.view) := by
  have runs : Meets (ykParsePlSegs granted cur streams h) fun r => r.1 = some next ∧ r.2.1 = made := ⟨_,run,rfl,rfl⟩
  unfold ykParsePlSegs at runs
  rw [meetsBind,meetsStrstr] at runs
  obtain ⟨-,runs⟩ := runs
  unfold SnoopClient.ykParsePlSegs after
  cases place : strstr cur (ascii "segs") with
  | none => simp [place] at runs
  | some k =>
    simp only [place,Option.map_some,List.drop_drop] at runs
    exact listsAgree (fun some_ => terminatedSuffix text (List.drop_suffix _ _) some_) (Nat.le_refl _) runs

end loops

theorem playlistAgrees {granted : Nat → Bool} {text : Bytes} {streams : List Stream} {h : Heap}
    (run : ykParsePlaylist granted (stringAt text) [] {} = .ok (0,streams,h)) :
    SnoopClient.ykParsePlaylist (stringAt text) [] = some (streams.map Stream.view) := by
  have whole := terminatedString text
  have runs : Meets (ykParsePlaylist granted (stringAt text) [] {}) fun r => r.1 = 0 ∧ r.2.1 = streams := ⟨_,run,rfl,rfl⟩
  unfold ykParsePlaylist at runs
  rw [if_neg (by simp),meetsBind,seedRule whole] at runs
  obtain ⟨mark,runs⟩ := runs
  cases seed : SnoopClient.ykParsePlSeed (stringAt text) with
  | none => simp [seed] at runs
  | some found =>
    simp only [seed,meetsBind] at runs
    obtain ⟨⟨cur,made,h'⟩,ids,runs⟩ := runs
    cases cur with
    | none => simp at runs
    | some cur =>
      simp only [setSeeds,meetsBind,meetsIf,meetsOk,meetsError] at runs
      split at runs
      · obtain ⟨⟨next,last,h''⟩,segs,ended⟩ := runs
        cases next with
        | none => simp at ended
        | some next =>
          have last_ : last = streams := by simpa using ended
          have named : (made.map Stream.view).map (fun stream => { stream with seed := atoi found.1 }) =
              (made.map fun stream => { stream with seed := atoi found.1 }).map Stream.view := by
            simp [Stream.view,Function.comp_def]
          have parsed := segsTextAgree (idsRest (seedRest whole mark seed) ids) segs
          rw [last_] at parsed
          simp [SnoopClient.ykParsePlaylist,seed,idsTextAgree ids,named,parsed,-List.map_map]
      · exact runs.elim

end MipsElfExec.SnoopClient.Memory

import MipsElfExec.SnoopClient.Playlist

/-! The parser reads back the playlist that the server sent. -/
namespace MipsElfExec.SnoopClient
open CString

def Segment.read (s : Segment) : SegmentInfo :=
  ⟨atoi s.no.text,atoi s.size.text,atoi s.seconds.text,s.k.text,s.k2.text⟩

def Stream.read (seed : Nat) (s : Stream) : StreamInfo :=
  ⟨s.type,s.fileids.text,seed,(s.first :: s.more).map Segment.read⟩

section tokens
variable {chunk pat val rest : Bytes} {skip len : Nat} {p : Byte → Bool}

theorem afterChunk (clean : (0 : Byte) ∉ chunk) (found : (search pat chunk).map (· + skip) = some chunk.length)
    (rest : Bytes) : after (chunk ++ rest) pat skip = some rest := by
  obtain ⟨k,here,size⟩ := Option.map_eq_some_iff.mp found
  unfold after strstr
  rw [cstrAppend,if_neg clean,searchExtends here,Option.map_some,size,List.drop_left]

theorem afterMark {before mark : Bytes} (clean : (0 : Byte) ∉ before ++ mark)
    (found : search pat (before ++ pat) = some before.length) (opens : pat.isPrefixOf mark = true)
    (size : mark.length = skip) (rest : Bytes) : after (before ++ (mark ++ rest)) pat skip = some rest := by
  obtain ⟨more,rfl⟩ := List.isPrefixOf_iff_prefix.mp opens
  rw [← List.append_assoc]
  refine afterChunk clean ?_ rest
  rw [← List.append_assoc,searchExtends found,Option.map_some,List.append_assoc,List.length_append,size]

theorem copyStops (all : ∀ b ∈ val,p b = true) (short : val.length ≤ len) (stop : rest.head?.all (fun b => !p b) = true) :
    copyWhile p len (val ++ rest) = (val,rest) := by
  have none_ : rest.takeWhile p = [] := by
    cases rest with
    | nil => rfl
    | cons b rest => exact List.takeWhile_cons_of_neg (by simpa using stop)
  unfold copyWhile
  rw [List.takeWhile_append_of_pos all,none_,List.append_nil,List.take_of_length_le short]
  dsimp only
  rw [List.drop_left]

theorem chunkStop {stop : Byte → Bool} (head : chunk.head?.any stop = true) (rest : Bytes) :
    (chunk ++ rest).head?.all stop = true := by
  cases chunk with
  | nil => cases head
  | cons b chunk => exact head

theorem valStops (d : Digits ykValueLen) (stop : chunk.head?.any (fun b => !valDigit b) = true) (rest : Bytes) :
    ykVal (d.text ++ (chunk ++ rest)) = (d.text,chunk ++ rest) := by
  have all (b : Byte) (mem : b ∈ d.text) : valDigit b = true := by
    have digit := d.digits b mem
    have other : b ≠ quote := fun same => by rw [same] at digit; exact absurd digit (by decide)
    simp [valDigit,digit,other]
  exact copyStops all (Nat.le_sub_one_of_lt d.short) (chunkStop stop rest)

theorem keyStops {n : Nat} (t : Token [quote,0] n) (stop : chunk.head?.any (fun b => !keyByte b) = true)
    (rest : Bytes) : copyWhile keyByte (n - 1) (t.text ++ (chunk ++ rest)) = (t.text,chunk ++ rest) := by
  have all (b : Byte) (mem : b ∈ t.text) : keyByte b = true := by
    have clean := t.clean b mem
    simp only [List.mem_cons,not_or] at clean
    simp [keyByte,clean.1,clean.2.1]
  exact copyStops all (Nat.le_sub_one_of_lt t.short) (chunkStop stop rest)

theorem keyChunk (clean : (0 : Byte) ∉ chunk) (found : (strchr chunk 107).map (· + ykTokenLenK) = some chunk.length)
    (rest : Bytes) :
    (strchr (chunk ++ rest) 107).map (fun k => (chunk ++ rest).drop (k + ykTokenLenK)) = some rest := by
  obtain ⟨k,here,size⟩ := Option.map_eq_some_iff.mp found
  rw [strchrAppend clean,here,Option.some_or,Option.map_some,size,List.drop_left]

end tokens

theorem secondsRead (s : Segment) (rest : Bytes) :
    let cur := s.mark ++ (s.seconds.text ++ (s.mark ++ (ascii ",\"k\":\"" ++ rest)))
    ykVal (if cur.head? = some quote then cur.drop 1 else cur) =
      (s.seconds.text,s.mark ++ (ascii ",\"k\":\"" ++ rest)) := by
  unfold Segment.mark
  cases s.quoted with
  | true => exact valStops s.seconds (by decide) _
  | false =>
    have bare : (s.seconds.text ++ (ascii ",\"k\":\"" ++ rest)).head? ≠ some quote := by
      have digits := s.seconds.digits
      cases text : s.seconds.text with
      | nil =>
        intro same
        have bare : (ascii ",\"k\":\"").head?.any (fun b => b != quote) = true := by decide
        have comma := chunkStop bare rest
        rw [← List.nil_append (_ ++ rest),same] at comma
        exact absurd comma (by decide)
      | cons b more =>
        intro same
        cases Option.some.inj same
        rw [text] at digits
        exact absurd (digits quote List.mem_cons_self) (by decide)
    have comma : (ascii ",\"k\":\"").head?.any (fun b => !valDigit b) = true := by decide
    exact (congrArg ykVal (if_neg bare)).trans (valStops s.seconds comma rest)

theorem keyRead (s : Segment) (rest : Bytes) :
    (strchr (s.mark ++ (ascii ",\"k\":\"" ++ rest)) 107).map (fun k =>
      (s.mark ++ (ascii ",\"k\":\"" ++ rest)).drop (k + ykTokenLenK)) = some rest := by
  unfold Segment.mark
  cases s.quoted with
  | true =>
    have clean : (0 : Byte) ∉ ascii "\",\"k\":\"" := by decide
    exact keyChunk clean (by decide) rest
  | false => exact keyChunk (by decide) (by decide) rest

theorem segmentRead (s : Segment) (rest : Bytes) : ykCreateSegmentInfo (s.body rest) = some s.read := by
  have sizeStop : (ascii "\",\"size\":\"").head?.any (fun b => !valDigit b) = true := by decide
  have secondsStop : (ascii "\",\"seconds\":").head?.any (fun b => !valDigit b) = true := by decide
  have keyStop : (ascii "\",\"k2\":\"").head?.any (fun b => !keyByte b) = true := by decide
  unfold ykCreateSegmentInfo Segment.body
  simp only [Option.bind_eq_bind]
  rw [afterChunk (by decide) (by decide),Option.bind_some]
  simp only [valStops s.no sizeStop]
  rw [afterChunk (by decide) (by decide),Option.bind_some]
  simp only [valStops s.size secondsStop]
  rw [afterChunk (by decide) (by decide),Option.bind_some]
  rw [secondsRead]
  dsimp only
  rw [keyRead,Option.bind_some]
  have key (rest : Bytes) := keyStops s.k keyStop rest
  rw [key]
  dsimp only
  rw [afterChunk (by decide) (by decide),Option.bind_some,keyStops s.k2 (by decide)]
  rfl

section segments
variable {s : Segment} {more : List Segment} {rest : Bytes} {c : Byte}

def Segment.lacks (c : Byte) (s : Segment) : Prop := c ∉ s.k.text ∧ c ∉ s.k2.text

theorem bodyAppend (s : Segment) (rest : Bytes) : s.body rest = s.body [] ++ rest := by
  simp [Segment.body]

theorem bodyLacks (s : Segment) (mark : c ∈ [(0 : Byte),125,93]) : c ∉ s.body [] ↔ s.lacks c := by
  simp only [List.mem_cons,List.not_mem_nil,or_false] at mark
  have digits {n : Nat} (d : Digits n) : c ∉ d.text := by
    intro mem
    have digit := d.digits c mem
    rcases mark with rfl | rfl | rfl <;> exact absurd digit (by decide)
  have quotes : c ∉ s.mark := by
    unfold Segment.mark
    rcases mark with rfl | rfl | rfl <;> cases s.quoted <;> decide
  have fixed : c ∉ ascii "\x7b\"no\":\"" ∧ c ∉ ascii "\",\"size\":\"" ∧ c ∉ ascii "\",\"seconds\":" ∧
      c ∉ ascii ",\"k\":\"" ∧ c ∉ ascii "\",\"k2\":\"" ∧ c ∉ ascii "\"" := by
    rcases mark with rfl | rfl | rfl <;> decide
  simp [Segment.body,Segment.lacks,digits,quotes,fixed]

theorem bodyNoNul (s : Segment) : (0 : Byte) ∉ s.body [] :=
  (bodyLacks s (by decide)).mpr ⟨fun mem => s.k.clean 0 mem (by decide),fun mem => s.k2.clean 0 mem (by decide)⟩

theorem bodyShort (s : Segment) : (s.body []).length ≤ ykSegInfoLen := by
  have no := s.no.short
  have size := s.size.short
  have seconds := s.seconds.short
  have k := s.k.short
  have k2 := s.k2.short
  have mark : s.mark.length ≤ 1 := by
    unfold Segment.mark
    cases s.quoted <;> decide
  have chunks : (ascii "\x7b\"no\":\"").length = 7 ∧ (ascii "\",\"size\":\"").length = 10 ∧
      (ascii "\",\"seconds\":").length = 12 ∧ (ascii ",\"k\":\"").length = 6 ∧ (ascii "\",\"k2\":\"").length = 8 ∧
      (ascii "\"").length = 1 := by decide
  simp only [Segment.body,List.length_append,chunks,List.length_nil]
  simp only [ykValueLen,ykSegmentKLen,ykSegmentK2Len,ykSegInfoLen] at *
  omega

theorem segmentTaken (plain : s.lacks 125) (rest : Bytes) :
    ((s.body (125 :: rest)).takeWhile (· != 125)).take ykSegInfoLen = s.body [] := by
  have clean := (bodyLacks s (by decide)).mpr plain
  have all (b : Byte) (mem : b ∈ s.body []) : (b != 125) = true := bne_iff_ne.mpr fun same => clean (same ▸ mem)
  have stop : (125 :: rest).takeWhile (fun b : Byte => b != 125) = [] := List.takeWhile_cons_of_neg (by simp)
  rw [bodyAppend,List.takeWhile_append_of_pos all,stop,List.append_nil,List.take_of_length_le (bodyShort s)]

theorem segmentStep {stop : Bytes} {segs : List SegmentInfo} {left : Nat} (plain : s.lacks 125)
    (before : stop.length < (s.body (125 :: c :: rest)).length) :
    segsLoop stop (left + 1) (s.body (125 :: c :: rest)) segs segs.length =
      segsLoop stop left rest (segs ++ [s.read]) (segs ++ [s.read]).length := by
  have behind : (s.body (125 :: c :: rest)).drop ((s.body []).length + ykTokenLenSegEnd) = rest := by
    rw [bodyAppend s (125 :: c :: rest),← List.drop_drop,List.drop_left]
    rfl
  have stored : segStore segs segs.length s.read = segs ++ [s.read] := by simp [segStore]
  rw [segsLoop,if_pos before]
  dsimp only
  rw [segmentTaken plain,← bodyAppend,segmentRead,behind]
  dsimp only
  rw [stored,List.length_append]
  rfl

theorem segsEnded {stop ret : Bytes} (behind : ret.length ≤ stop.length) (left cnt : Nat) (segs : List SegmentInfo) :
    segsLoop stop left ret segs cnt = some (ret,segs) := by
  cases left <;> simp [segsLoop,Nat.not_lt_of_le behind]

theorem segsLong (s : Segment) (more : List Segment) (rest : Bytes) :
    rest.length + 2 ≤ (segsText s more rest).length := by
  induction more generalizing s with
  | nil =>
    have size : (ascii "\x7d]").length = 2 := rfl
    rw [segsText,bodyAppend,List.length_append,List.length_append,size]
    omega
  | cons next more ih =>
    have tail := ih next
    rw [segsText,bodyAppend,List.length_append,List.length_append]
    omega

theorem strchrNone {text : Bytes} (clean : (0 : Byte) ∉ text) (missing : c ∉ text) : strchr text c = none := by
  unfold strchr
  rw [cstrOfNoNul clean,List.findIdx?_eq_none_iff]
  exact fun b mem => beq_eq_false_iff_ne.mpr fun same => missing (same ▸ mem)

theorem strchrSome {text : Bytes} (clean : (0 : Byte) ∉ text) (inside : c ∈ text) : ∃ k < text.length,strchr text c = some k := by
  cases found : strchr text c with
  | none =>
    unfold strchr at found
    rw [cstrOfNoNul clean,List.findIdx?_eq_none_iff] at found
    exact absurd (found c inside) (by simp)
  | some k =>
    unfold strchr at found
    rw [cstrOfNoNul clean] at found
    exact ⟨k,(List.findIdx?_eq_some_iff_getElem.mp found).1,rfl⟩

theorem segsOpen (s : Segment) (more : List Segment) (rest : Bytes) :
    ∃ tail,segsText s more rest = ascii "\x7b\"no\":\"" ++ tail := by
  cases more <;> exact ⟨_,rfl⟩

theorem segsClosed (s : Segment) (more : List Segment) (rest : Bytes) : ∃ front,
    segsText s more rest = front ++ 93 :: rest ∧ (0 : Byte) ∉ front := by
  induction more generalizing s with
  | nil =>
    refine ⟨s.body [] ++ [125],by rw [segsText,bodyAppend,List.append_assoc]; rfl,?_⟩
    rw [List.mem_append,not_or]
    exact ⟨bodyNoNul s,by decide⟩
  | cons next more ih =>
    obtain ⟨front,same,clean⟩ := ih next
    refine ⟨s.body [] ++ (ascii "\x7d," ++ front),by rw [segsText,same,bodyAppend]; simp,?_⟩
    simp only [List.mem_append,not_or]
    exact ⟨bodyNoNul s,by decide,clean⟩

theorem segsFound (s : Segment) (more : List Segment) (rest : Bytes) : ∃ k,strchr (segsText s more rest) 93 = some k ∧
    0 < k ∧ k + rest.length < (segsText s more rest).length := by
  obtain ⟨front,same,clean⟩ := segsClosed s more rest
  obtain ⟨tail,opens⟩ := segsOpen s more rest
  have here : strchr (93 :: rest) 93 = some 0 := by simp [strchr,cstr,List.findIdx?_cons]
  have first : strchr (ascii "\x7b\"no\":\"") 93 = none := by decide
  obtain ⟨k,found,few⟩ : ∃ k,strchr (segsText s more rest) 93 = some k ∧ k ≤ front.length := by
    rw [same,strchrAppend clean,here]
    by_cases inside : (93 : Byte) ∈ front
    · obtain ⟨k,small,found⟩ := strchrSome clean inside
      exact ⟨k,by rw [found]; rfl,small.le⟩
    · exact ⟨front.length,by rw [strchrNone clean inside]; simp,Nat.le_refl _⟩
  refine ⟨k,found,?_,?_⟩
  · rw [opens,strchrAppend (by decide),first,Option.none_or] at found
    obtain ⟨j,_,rfl⟩ := Option.map_eq_some_iff.mp found
    exact Nat.lt_of_lt_of_le (by decide) (Nat.le_add_left _ j)
  · rw [same,List.length_append,List.length_cons]
    omega

theorem bracketBehind (opens : s.lacks 93) (text : Bytes) :
    strchr (s.body (ascii "\x7d," ++ text)) 93 = (strchr text 93).map (· + ((s.body []).length + 2)) := by
  have clean : (0 : Byte) ∉ s.body [] ++ ascii "\x7d," := by
    rw [List.mem_append,not_or]
    exact ⟨bodyNoNul s,by decide⟩
  have missing : (93 : Byte) ∉ s.body [] ++ ascii "\x7d," := by
    rw [List.mem_append,not_or]
    exact ⟨(bodyLacks s (by decide)).mpr opens,by decide⟩
  have size : (s.body [] ++ ascii "\x7d,").length = (s.body []).length + 2 := List.length_append
  rw [bodyAppend,← List.append_assoc,strchrAppend clean,strchrNone clean missing,Option.none_or,size]

theorem bracketInside (closes : ¬s.lacks 93) {text : Bytes} {k : Nat} (found : strchr (s.body text) 93 = some k) :
    k < (s.body []).length := by
  have inside : (93 : Byte) ∈ s.body [] := Classical.byContradiction fun missing =>
    closes ((bodyLacks s (by decide)).mp missing)
  obtain ⟨j,small,first⟩ := strchrSome (bodyNoNul s) inside
  rw [bodyAppend,strchrAppend (bodyNoNul s),first,Option.some_or] at found
  exact Option.some.inj found ▸ small

theorem segmentBefore {next : Segment} {stop : Bytes} {k : Nat} (found : strchr (segsText s (next :: more) rest) 93 = some k)
    (size : stop.length + k = (segsText s (next :: more) rest).length) :
    stop.length < (s.body (125 :: 44 :: segsText next more rest)).length ∧
    stop.length + k = (s.body []).length + 2 + (segsText next more rest).length := by
  obtain ⟨_,found',some_,_⟩ := segsFound s (next :: more) rest
  cases found.symm.trans found'
  change stop.length + k = (s.body (125 :: 44 :: segsText next more rest)).length at size
  refine ⟨by omega,?_⟩
  rw [size,bodyAppend,List.length_append,List.length_cons,List.length_cons]
  omega

theorem segsRead {stop : Bytes} {k left : Nat} (plain : ∀ seg ∈ s :: more,seg.lacks 125)
    (opens : ∀ seg ∈ (s :: more).dropLast,seg.lacks 93) (found : strchr (segsText s more rest) 93 = some k)
    (size : stop.length + k = (segsText s more rest).length) (room : more.length < left) (segs : List SegmentInfo) :
    segsLoop stop left (segsText s more rest) segs segs.length = some (rest,segs ++ (s :: more).map Segment.read) := by
  induction more generalizing s left segs k with
  | nil =>
    obtain ⟨left,rfl⟩ := Nat.exists_eq_add_one_of_ne_zero (Nat.ne_of_gt (Nat.zero_lt_of_lt room))
    obtain ⟨_,found',some_,bound⟩ := segsFound s [] rest
    cases found.symm.trans found'
    have before : stop.length < (s.body (125 :: 93 :: rest)).length := by
      change stop.length + k = (s.body (125 :: 93 :: rest)).length at size
      omega
    exact (segmentStep (plain s List.mem_cons_self) before).trans (segsEnded (by omega) ..)
  | cons next more ih =>
    obtain ⟨left,rfl⟩ := Nat.exists_eq_add_one_of_ne_zero (Nat.ne_of_gt (Nat.zero_lt_of_lt room))
    obtain ⟨before,whole⟩ := segmentBefore found size
    obtain ⟨j,first,_,_⟩ := segsFound next more rest
    have moved := found
    rw [segsText,bracketBehind (opens s List.mem_cons_self),first] at moved
    obtain rfl : j + ((s.body []).length + 2) = k := Option.some.inj moved
    refine (segmentStep (plain s List.mem_cons_self) before).trans ?_
    rw [ih (fun seg mem => plain seg (List.mem_cons_of_mem _ mem)) (fun seg mem => opens seg (List.mem_cons_of_mem _ mem))
      first (by omega) (Nat.lt_of_succ_lt_succ room),List.append_assoc]
    rfl

theorem segsStopped {stop : Bytes} {k left : Nat} (plain : ∀ seg ∈ s :: more,seg.lacks 125)
    (closes : ¬∀ seg ∈ (s :: more).dropLast,seg.lacks 93) (found : strchr (segsText s more rest) 93 = some k)
    (size : stop.length + k = (segsText s more rest).length) (room : more.length < left) (segs : List SegmentInfo) :
    ∃ tail made,segsLoop stop left (segsText s more rest) segs segs.length = some (ascii "\x7b\"no\":\"" ++ tail,made) := by
  induction more generalizing s left segs k with
  | nil => exact (closes nofun).elim
  | cons next more ih =>
    obtain ⟨left,rfl⟩ := Nat.exists_eq_add_one_of_ne_zero (Nat.ne_of_gt (Nat.zero_lt_of_lt room))
    obtain ⟨before,whole⟩ := segmentBefore found size
    have step := @segmentStep s _ 44 stop segs left (plain s List.mem_cons_self) before
    rcases Classical.em (s.lacks 93) with opens | inside
    · obtain ⟨j,first,_,_⟩ := segsFound next more rest
      have moved := found
      rw [segsText,bracketBehind opens,first] at moved
      obtain rfl : j + ((s.body []).length + 2) = k := Option.some.inj moved
      obtain ⟨tail,made,last⟩ := ih (fun seg mem => plain seg (List.mem_cons_of_mem _ mem))
        (fun all => closes fun seg mem => (List.mem_cons.mp mem).elim (fun same => same ▸ opens) (all seg)) first
        (by omega) (Nat.lt_of_succ_lt_succ room) (segs ++ [s.read])
      exact ⟨tail,made,step.trans last⟩
    · obtain ⟨tail,opens⟩ := segsOpen next more rest
      have near := bracketInside inside found
      exact ⟨tail,_,(step.trans (segsEnded (by omega) ..)).trans (by rw [opens])⟩

theorem segsBehind (s : Stream) (rest : Bytes) :
    (s.type.name ++ (ascii "\":[" ++ segsText s.first s.more rest)).drop ykTokenLenType = segsText s.first s.more rest := by
  cases s.type <;> rfl

def Stream.plain (s : Stream) : Prop := ∀ seg ∈ s.first :: s.more,seg.lacks 125

def Stream.opens (s : Stream) : Prop := ∀ seg ∈ (s.first :: s.more).dropLast,seg.lacks 93

theorem segsDo (s : Stream) (rest : Bytes) (stream : StreamInfo) (fresh : stream.segs = []) : ∃ stop k,
    strchr (segsText s.first s.more rest) 93 = some k ∧ stop.length + k = (segsText s.first s.more rest).length ∧
    ykParsePlSegsDo (s.type.name ++ (ascii "\":[" ++ segsText s.first s.more rest)) stream =
      (segsLoop stop ykStreamSegsMax (segsText s.first s.more rest) [] 0).map fun walked =>
        (walked.1.drop ykTokenLenSegEnd,{ stream with segs := walked.2 }) := by
  obtain ⟨k,found,_,bound⟩ := segsFound s.first s.more rest
  refine ⟨(segsText s.first s.more rest).drop k,k,found,?_,?_⟩
  · rw [List.length_drop]
    omega
  · unfold ykParsePlSegsDo
    dsimp only
    rw [segsBehind,found]
    dsimp only
    rw [fresh]

theorem segsDoRead (s : Stream) (rest : Bytes) (stream : StreamInfo) (fresh : stream.segs = []) (plain : s.plain)
    (opens : s.opens) :
    ykParsePlSegsDo (s.type.name ++ (ascii "\":[" ++ segsText s.first s.more rest)) stream =
      some (rest.drop ykTokenLenSegEnd,{ stream with segs := (s.first :: s.more).map Segment.read }) := by
  obtain ⟨stop,k,found,size,ran⟩ := segsDo s rest stream fresh
  have read := segsRead plain opens found size s.few []
  exact ran.trans ((congrArg (Option.map _) read).trans rfl)

theorem segsDoStopped (s : Stream) (rest : Bytes) (stream : StreamInfo) (fresh : stream.segs = []) (plain : s.plain)
    (closes : ¬s.opens) :
    ∃ tail made,ykParsePlSegsDo (s.type.name ++ (ascii "\":[" ++ segsText s.first s.more rest)) stream =
      some (ascii "no\":\"" ++ tail,made) := by
  obtain ⟨stop,k,found,size,ran⟩ := segsDo s rest stream fresh
  obtain ⟨tail,made,stopped⟩ := segsStopped plain closes found size s.few []
  exact ⟨tail,{ stream with segs := made },ran.trans ((congrArg (Option.map _) stopped).trans rfl)⟩

end segments

section streams
variable {s : Stream} {more : List Stream} {seed : Nat} {chunk rest : Bytes}

def Stream.created (seed : Nat) (s : Stream) : StreamInfo := ⟨s.type,s.fileids.text,seed,[]⟩

theorem typeName (type : StreamType) (rest : Bytes) : typeAt (type.name ++ rest) = some type := by
  cases type <;> rfl

theorem typeQuote (rest : Bytes) : typeAt (quote :: rest) = none := rfl

theorem idsEntry (s : Stream) (close : chunk.head? = some quote) (size : chunk.length = ykTokenLenTypeEnd) (left : Nat)
    (rest : Bytes) (streams : List StreamInfo) :
    fileIdsLoop (left + 1) (s.type.name ++ (ascii "\":\"" ++ (s.fileids.text ++ (chunk ++ rest)))) streams =
      fileIdsLoop left rest (streams ++ [s.created 0]) := by
  have behind : (s.type.name ++ (ascii "\":\"" ++ (s.fileids.text ++ (chunk ++ rest)))).drop ykTokenLenType =
      s.fileids.text ++ (chunk ++ rest) := by
    cases s.type <;> rfl
  have all (b : Byte) (mem : b ∈ s.fileids.text) : (b != quote) = true := by
    have clean := s.fileids.clean b mem
    simp only [List.mem_cons,not_or] at clean
    simpa using clean.1
  obtain ⟨sep,rfl⟩ := List.head?_eq_some_iff.mp close
  have taken : (quote :: (sep ++ rest)).takeWhile (fun b : Byte => b != quote) = [] :=
    List.takeWhile_cons_of_neg (by simp)
  have dropped : (quote :: (sep ++ rest)).dropWhile (fun b : Byte => b != quote) = quote :: (sep ++ rest) :=
    List.dropWhile_cons_of_neg (by simp)
  rw [fileIdsLoop,typeName]
  dsimp only
  rw [behind,List.takeWhile_append_of_pos all,List.dropWhile_append_of_pos all,List.cons_append,
    taken,dropped,List.append_nil,← List.cons_append,← size,List.drop_left]
  rfl

theorem idsRead (opens : idsEnd.isPrefixOf (quote :: rest) = true) (left : Nat) (streams : List StreamInfo) :
    fileIdsLoop left (idsText s more (quote :: rest)) streams =
      if more.length + 1 < left then some (rest,streams ++ (s :: more).map (Stream.created 0)) else none := by
  induction more generalizing s left streams with
  | nil =>
    cases left with
    | zero => rfl
    | succ left =>
      rw [idsText,idsEntry s rfl rfl]
      cases left with
      | zero => rfl
      | succ left =>
        rw [fileIdsLoop,typeQuote]
        dsimp only
        rw [if_pos opens,if_pos (by simp)]
        rfl
  | cons next more ih =>
    cases left with
    | zero => rfl
    | succ left =>
      rw [idsText,idsEntry s rfl rfl,ih]
      simp [Stream.created]

theorem findUnread {done : List StreamInfo} (new : ∀ stream ∈ done,stream.type ≠ s.type) (more : List StreamInfo) :
    ykFindStreamInfo (done ++ s.created seed :: more) s.type = some done.length := by
  have missing : done.findIdx? (fun stream => stream.type == s.type) = none := by
    rw [List.findIdx?_eq_none_iff]
    exact fun stream mem => by simpa using new stream mem
  have here : (s.created seed :: more).findIdx? (fun stream => stream.type == s.type) = some 0 := by
    simp [List.findIdx?_cons,Stream.created]
  rw [ykFindStreamInfo,List.findIdx?_append,missing,here]
  simp

theorem streamRound {done : List StreamInfo} (new : ∀ stream ∈ done,stream.type ≠ s.type) (more : List StreamInfo)
    (fuel : Nat) :
    plSegsLoop (fuel + 1) (s.type.name ++ (ascii "\":[" ++ segsText s.first s.more rest)) (done ++ s.created seed :: more) =
      (ykParsePlSegsDo (s.type.name ++ (ascii "\":[" ++ segsText s.first s.more rest)) (s.created seed)).bind
        fun (ret,stream) => plSegsLoop fuel ret ((done ++ s.created seed :: more).set done.length stream) := by
  have here : (done ++ s.created seed :: more)[done.length]? = some (s.created seed) := by simp
  rw [plSegsLoop,typeName]
  simp only [findUnread new,here,Option.bind_eq_bind,Option.bind_some]

theorem streamStep {done : List StreamInfo} (new : ∀ stream ∈ done,stream.type ≠ s.type) (plain : s.plain) (opens : s.opens)
    (more : List StreamInfo) (fuel : Nat) :
    plSegsLoop (fuel + 1) (s.type.name ++ (ascii "\":[" ++ segsText s.first s.more rest)) (done ++ s.created seed :: more) =
      plSegsLoop fuel (rest.drop ykTokenLenSegEnd) (done ++ [s.read seed] ++ more) := by
  have stored : (done ++ s.created seed :: more).set done.length (s.read seed) = done ++ [s.read seed] ++ more := by
    simp
  rw [streamRound new,segsDoRead s rest (s.created seed) rfl plain opens,Option.bind_some,← stored]
  rfl

theorem streamStopped {done : List StreamInfo} (new : ∀ stream ∈ done,stream.type ≠ s.type) (plain : s.plain)
    (closes : ¬s.opens) (more : List StreamInfo) (fuel : Nat) :
    plSegsLoop fuel (s.type.name ++ (ascii "\":[" ++ segsText s.first s.more rest)) (done ++ s.created seed :: more) = none := by
  cases fuel with
  | zero => rfl
  | succ fuel =>
    obtain ⟨tail,made,stopped⟩ := segsDoStopped s rest (s.created seed) rfl plain closes
    rw [streamRound new,stopped,Option.bind_some]
    cases fuel <;> rfl

theorem headNew {done : List StreamInfo} (new : ∀ stream ∈ done,stream.type ∉ (s :: more).map Stream.type) :
    ∀ stream ∈ done,stream.type ≠ s.type :=
  fun stream mem same => new stream mem (List.mem_cons.mpr (Or.inl same))

theorem othersNew {next : Stream} {done : List StreamInfo} (distinct : ((s :: next :: more).map Stream.type).Nodup)
    (new : ∀ stream ∈ done,stream.type ∉ (s :: next :: more).map Stream.type) :
    ∀ stream ∈ done ++ [s.read seed],stream.type ∉ (next :: more).map Stream.type := by
  intro stream mem
  rcases List.mem_append.mp mem with old | last
  · exact fun inside => new stream old (List.mem_cons_of_mem _ inside)
  · rw [List.mem_singleton.mp last]
    exact (List.nodup_cons.mp distinct).1

theorem streamsRead {done : List StreamInfo} {fuel : Nat} (enough : more.length + 1 < fuel)
    (distinct : ((s :: more).map Stream.type).Nodup) (new : ∀ stream ∈ done,stream.type ∉ (s :: more).map Stream.type)
    (plain : ∀ x ∈ s :: more,x.plain) (opens : ∀ x ∈ s :: more,x.opens) :
    plSegsLoop fuel (streamsText s more (segsEnd ++ rest)) (done ++ (s :: more).map (Stream.created seed)) =
      some ((segsEnd ++ rest).drop 1,done ++ (s :: more).map (Stream.read seed)) := by
  induction more generalizing s done fuel with
  | nil =>
    obtain ⟨fuel,rfl⟩ : ∃ n,fuel = n + 2 := Nat.exists_eq_add_of_le' enough
    have behind : (ascii "\x7d," ++ (segsEnd ++ rest)).drop ykTokenLenSegEnd = segsEnd ++ rest := rfl
    have ended : typeAt (segsEnd ++ rest) = none := rfl
    have closed : segsEnd.isPrefixOf (segsEnd ++ rest) = true :=
      List.isPrefixOf_iff_prefix.mpr (List.prefix_append _ _)
    rw [streamsText,List.map_cons,streamStep (headNew new) (plain s List.mem_cons_self) (opens s List.mem_cons_self),behind,
      plSegsLoop,ended]
    dsimp only
    rw [if_pos closed,List.map_nil,List.append_nil]
    rfl
  | cons next more ih =>
    obtain ⟨fuel,rfl⟩ : ∃ n,fuel = n + 1 := Nat.exists_eq_add_of_le' (Nat.zero_lt_of_lt enough)
    have tail (x : Bytes) : (ascii ",\"" ++ x).drop ykTokenLenSegEnd = x := rfl
    rw [streamsText,List.map_cons,streamStep (headNew new) (plain s List.mem_cons_self) (opens s List.mem_cons_self),tail,
      ih (Nat.lt_of_succ_lt_succ enough) (List.nodup_cons.mp distinct).2 (othersNew distinct new)
        (fun x mem => plain x (List.mem_cons_of_mem _ mem)) (fun x mem => opens x (List.mem_cons_of_mem _ mem)),
      List.append_assoc]
    rfl

theorem streamsStopped {done : List StreamInfo} {fuel : Nat} (distinct : ((s :: more).map Stream.type).Nodup)
    (new : ∀ stream ∈ done,stream.type ∉ (s :: more).map Stream.type) (plain : ∀ x ∈ s :: more,x.plain)
    (closes : ¬∀ x ∈ s :: more,x.opens) :
    plSegsLoop fuel (streamsText s more (segsEnd ++ rest)) (done ++ (s :: more).map (Stream.created seed)) = none := by
  induction more generalizing s done fuel with
  | nil =>
    exact streamStopped (headNew new) (plain s List.mem_cons_self) (fun opens => closes (List.forall_mem_singleton.mpr opens)) _ fuel
  | cons next more ih =>
    have tail (x : Bytes) : (ascii ",\"" ++ x).drop ykTokenLenSegEnd = x := rfl
    rw [streamsText,List.map_cons]
    rcases Classical.em s.opens with opens | early
    · cases fuel with
      | zero => rfl
      | succ fuel =>
        rw [streamStep (headNew new) (plain s List.mem_cons_self) opens,tail]
        exact ih (List.nodup_cons.mp distinct).2 (othersNew distinct new) (fun x mem => plain x (List.mem_cons_of_mem _ mem))
          fun all => closes (List.forall_mem_cons.mpr ⟨opens,all⟩)
    · exact streamStopped (headNew new) (plain s List.mem_cons_self) early _ fuel

theorem streamsLong (s : Stream) (more : List Stream) (rest : Bytes) :
    more.length + 1 + rest.length < (streamsText s more rest).length := by
  have name (s : Stream) : s.type.name.length = 3 := by cases s.type <;> rfl
  induction more generalizing s with
  | nil =>
    have long := segsLong s.first s.more (ascii "\x7d," ++ rest)
    rw [List.length_append] at long
    rw [streamsText,List.length_append,List.length_append,name]
    simp only [List.length_nil]
    omega
  | cons next more ih =>
    have long := segsLong s.first s.more (ascii ",\"" ++ streamsText next more rest)
    have tail := ih next
    rw [List.length_append] at long
    rw [streamsText,List.length_append,List.length_append,name,List.length_cons]
    omega

end streams

section braces
variable {seg : SegmentInfo} {info cur rest stop ret : Bytes}

def SegmentInfo.plain (seg : SegmentInfo) : Prop := 125 ∉ seg.k ∧ 125 ∉ seg.k2

theorem afterPlain {pat : Bytes} {skip : Nat} (found : after cur pat skip = some rest) (plain : (125 : Byte) ∉ cur) :
    (125 : Byte) ∉ rest := by
  obtain ⟨k,_,rfl⟩ := Option.map_eq_some_iff.mp found
  exact fun mem => plain (List.mem_of_mem_drop mem)

theorem copyPlain (p : Byte → Bool) (len : Nat) (plain : (125 : Byte) ∉ cur) :
    (125 : Byte) ∉ (copyWhile p len cur).1 ∧ (125 : Byte) ∉ (copyWhile p len cur).2 :=
  ⟨fun mem => plain ((List.takeWhile_prefix p).subset (List.mem_of_mem_take mem)),fun mem => plain (List.mem_of_mem_drop mem)⟩

theorem createPlain (plain : (125 : Byte) ∉ info) (made : ykCreateSegmentInfo info = some seg) : seg.plain := by
  unfold ykCreateSegmentInfo at made
  simp only [Option.bind_eq_bind,Option.bind_eq_some_iff] at made
  obtain ⟨cur,no,cur1,size,cur2,seconds,cur3,key,cur4,second,same⟩ := made
  have behindNo := (copyPlain valDigit (ykValueLen - 1) (afterPlain no plain)).2
  have behindSize := (copyPlain valDigit (ykValueLen - 1) (afterPlain size behindNo)).2
  have opened := afterPlain seconds behindSize
  have unquoted : (125 : Byte) ∉ if cur2.head? = some quote then cur2.drop 1 else cur2 := by
    split
    · exact fun mem => opened (List.mem_of_mem_drop mem)
    · exact opened
  have behindSeconds := (copyPlain valDigit (ykValueLen - 1) unquoted).2
  have keyed : (125 : Byte) ∉ cur3 := by
    obtain ⟨k,_,rfl⟩ := Option.map_eq_some_iff.mp key
    exact fun mem => behindSeconds (List.mem_of_mem_drop mem)
  obtain ⟨first,behind⟩ := copyPlain keyByte (ykSegmentKLen - 1) keyed
  have last := copyPlain keyByte (ykSegmentK2Len - 1) (afterPlain second behind)
  cases Option.some.inj same
  exact ⟨first,last.1⟩

theorem segsPlain {left cnt : Nat} {segs made : List SegmentInfo} (plain : ∀ seg ∈ segs,seg.plain)
    (ran : segsLoop stop left ret segs cnt = some (rest,made)) : ∀ seg ∈ made,seg.plain := by
  induction left generalizing ret segs cnt with
  | zero =>
    unfold segsLoop at ran
    split at ran <;> try contradiction
    cases Option.some.inj ran
    exact plain
  | succ left ih =>
    unfold segsLoop at ran
    split at ran
    · dsimp only at ran
      split at ran <;> try contradiction
      rename_i seg created
      have text : (125 : Byte) ∉ (ret.takeWhile (· != 125)).take ykSegInfoLen ++
          List.replicate (ykSegInfoLen - ((ret.takeWhile (· != 125)).take ykSegInfoLen).length) 0 := by
        intro mem
        rcases List.mem_append.mp mem with copied | zero
        · exact absurd (List.mem_takeWhile_imp (List.mem_of_mem_take copied)) (by decide)
        · exact absurd (List.eq_of_mem_replicate zero) (by decide)
      refine ih (fun other mem => ?_) ran
      rcases List.mem_append.mp mem with kept | mem
      · exact plain other (List.mem_of_mem_take kept)
      · rcases List.mem_cons.mp mem with rfl | kept
        · exact createPlain text created
        · exact plain other (List.mem_of_mem_drop kept)
    · cases Option.some.inj ran
      exact plain

theorem plSegsPlain {fuel : Nat} {streams made : List StreamInfo} (plain : ∀ stream ∈ streams,∀ seg ∈ stream.segs,seg.plain)
    (ran : plSegsLoop fuel ret streams = some (rest,made)) : ∀ stream ∈ made,∀ seg ∈ stream.segs,seg.plain := by
  induction fuel generalizing ret streams with
  | zero => cases ran
  | succ fuel ih =>
    unfold plSegsLoop at ran
    split at ran
    · simp only [Option.bind_eq_bind,Option.bind_eq_some_iff] at ran
      obtain ⟨i,_,stream,at_,⟨behind,stored⟩,done,last⟩ := ran
      refine ih (fun other mem => ?_) last
      rcases List.mem_or_eq_of_mem_set mem with kept | rfl
      · exact plain other kept
      · obtain ⟨⟨end_,segs⟩,walked,same⟩ := Option.map_eq_some_iff.mp done
        cases same
        exact segsPlain (plain stream (List.mem_of_getElem? at_)) walked
    · split at ran <;> try contradiction
      cases Option.some.inj ran
      exact plain

end braces

section playlists
variable {p : Playlist} {l : Layout}

theorem decimalBound (digits : Bytes) (all : ∀ b ∈ digits,isdigit b = true) : decimal digits < 10 ^ digits.length := by
  induction digits using List.reverseRecOn with
  | nil => decide
  | append_singleton digits b ih =>
    have front := ih fun c mem => all c (List.mem_append_left _ mem)
    have small : b ≤ 57 := by
      have digit := all b (List.mem_append_right _ (List.mem_singleton.mpr rfl))
      simp only [isdigit,Bool.and_eq_true,decide_eq_true_eq] at digit
      exact digit.2
    have last : b.toNat ≤ 57 := small
    have value : decimal (digits ++ [b]) = 10 * decimal digits + (b.toNat - 48) := by
      simp [decimal]
    rw [value,List.length_append,List.length_singleton,Nat.pow_succ]
    omega

theorem seedValue (d : Digits ykSeedStringLen) : atoi d.text = decimal d.text := by
  have bound := decimalBound d.text d.digits
  have short : d.text.length ≤ 7 := Nat.le_of_lt_succ d.short
  have seven : 10 ^ d.text.length ≤ 10 ^ 7 := Nat.pow_le_pow_right (by decide) short
  exact Nat.min_eq_left (by omega)

theorem seedRead (l : Layout) (seed : Digits ykSeedStringLen) (rest : Bytes) :
    ykParsePlSeed (l.head ++ (ascii "seed\":" ++ (seed.text ++ (44 :: rest)))) = some (seed.text,44 :: rest) := by
  have clean : (0 : Byte) ∉ l.head ++ ascii "seed\":" := fun mem =>
    (List.mem_append.mp mem).elim (fun inside => l.text (by simp [inside])) (by decide)
  have all (b : Byte) (mem : b ∈ seed.text) : (b != 44 && isdigit b) = true := by
    have digit := seed.digits b mem
    have other : b ≠ 44 := fun same => by rw [same] at digit; exact absurd digit (by decide)
    simp [digit,other]
  have found (rest : Bytes) : after (l.head ++ (ascii "seed\":" ++ rest)) (ascii "seed") ykTokenLenSeed = some rest :=
    afterMark clean l.seedFirst (by decide) rfl rest
  unfold ykParsePlSeed
  rw [found,Option.map_some,copyStops all (Nat.le_sub_one_of_lt seed.short) rfl]

theorem fileidsRead (l : Layout) (p : Playlist) {rest : Bytes} (opens : idsEnd.isPrefixOf (quote :: rest) = true) :
    ykParsePlStreamfileids (44 :: l.mid ++ (streamfileidsOpen ++ idsText p.first p.more (quote :: rest))) =
      if p.streams.length < ykStreamTypeTotal then some (rest,p.streams.map (Stream.created 0)) else none := by
  have clean : (0 : Byte) ∉ 44 :: l.mid ++ streamfileidsOpen := fun mem =>
    (List.mem_append.mp mem).elim (fun inside => l.text (by
      rcases List.mem_cons.mp inside with comma | inside
      · exact absurd comma (by decide)
      · simp [inside])) (by decide)
  unfold ykParsePlStreamfileids
  rw [afterMark clean l.idsFirst (by decide) rfl,Option.bind_some,idsRead opens]
  rfl

theorem plSegsAt (l : Layout) (p : Playlist) (streams : List StreamInfo) :
    ykParsePlSegs (l.between ++ (ascii "segs\":\x7b\"" ++ streamsText p.first p.more (segsEnd ++ l.tail))) streams =
      plSegsLoop (streamsText p.first p.more (segsEnd ++ l.tail)).length (streamsText p.first p.more (segsEnd ++ l.tail))
        streams := by
  have clean : (0 : Byte) ∉ l.between ++ ascii "segs\":\x7b\"" := fun mem =>
    (List.mem_append.mp mem).elim (fun inside => l.text (by simp [inside])) (by decide)
  have found (rest : Bytes) : after (l.between ++ (ascii "segs\":\x7b\"" ++ rest)) (ascii "segs") ykTokenLenSegs = some rest :=
    afterMark clean l.segsFirst (by decide) rfl rest
  unfold ykParsePlSegs
  rw [found,Option.bind_some]

theorem playlistSegs (p : Playlist) (l : Layout) : ykParsePlaylist (p.text l) [] =
    if p.streams.length < ykStreamTypeTotal then
      (plSegsLoop (streamsText p.first p.more (segsEnd ++ l.tail)).length
        (streamsText p.first p.more (segsEnd ++ l.tail)) (p.streams.map (Stream.created (decimal p.seed.text)))).map Prod.snd
    else none := by
  have opens (rest : Bytes) : idsEnd.isPrefixOf (quote :: (l.between ++ (ascii "segs\":\x7b\"" ++ rest))) = true := by
    obtain ⟨more,same⟩ := List.isPrefixOf_iff_prefix.mp l.opens
    refine List.isPrefixOf_iff_prefix.mpr ⟨more ++ (ascii "\":\x7b\"" ++ rest),?_⟩
    have parts : l.between ++ (ascii "segs\":\x7b\"" ++ rest) = l.between ++ ascii "segs" ++ (ascii "\":\x7b\"" ++ rest) := by
      rw [List.append_assoc]
      rfl
    rw [parts,← same]
    simp [idsEnd,ascii,quote]
  unfold ykParsePlaylist Playlist.text
  rw [if_pos rfl]
  simp only [Option.bind_eq_bind]
  have seed (rest : Bytes) : ykParsePlSeed (l.head ++ (ascii "seed\":" ++ (p.seed.text ++ (44 :: l.mid ++ rest)))) =
      some (p.seed.text,44 :: l.mid ++ rest) := seedRead l p.seed _
  have ids := fileidsRead l p (opens (streamsText p.first p.more (segsEnd ++ l.tail)))
  rw [seed,Option.bind_some]
  refine (congrArg (Option.bind · _) ids).trans ?_
  split
  · have seeded : (p.streams.map (Stream.created 0)).map (fun stream => { stream with seed := atoi p.seed.text }) =
        p.streams.map (Stream.created (decimal p.seed.text)) := by
      rw [List.map_map,seedValue]
      rfl
    rw [Option.bind_some,seeded,plSegsAt l p]
    cases plSegsLoop _ _ _ <;> rfl
  · rfl

theorem playlistRead (p : Playlist) (l : Layout) (few : p.streams.length < ykStreamTypeTotal)
    (plain : ∀ s ∈ p.streams,s.plain) (opens : ∀ s ∈ p.streams,s.opens) :
    ykParsePlaylist (p.text l) [] = some (p.streams.map (Stream.read (decimal p.seed.text))) := by
  have enough := streamsLong p.first p.more (segsEnd ++ l.tail)
  have read := @streamsRead p.first p.more (decimal p.seed.text) l.tail [] _ (Nat.lt_of_le_of_lt (by
    rw [List.length_append]
    exact Nat.le_add_right ..) enough) p.distinct (fun _ mem => absurd mem List.not_mem_nil) plain opens
  rw [playlistSegs,if_pos few]
  exact congrArg (Option.map Prod.snd) read

theorem playlistStopped (p : Playlist) (l : Layout) (plain : ∀ s ∈ p.streams,s.plain) (closes : ¬∀ s ∈ p.streams,s.opens) :
    ykParsePlaylist (p.text l) [] = none := by
  have stopped := @streamsStopped p.first p.more (decimal p.seed.text) l.tail []
    (streamsText p.first p.more (segsEnd ++ l.tail)).length p.distinct (fun _ mem => absurd mem List.not_mem_nil) plain closes
  rw [playlistSegs]
  split
  · exact congrArg (Option.map Prod.snd) stopped
  · rfl

def Segment.fits (s : Segment) : Prop :=
  decimal s.no.text < 2 ^ 31 ∧ decimal s.size.text < 2 ^ 31 ∧ decimal s.seconds.text < 2 ^ 31

theorem atoiExact (val : Bytes) : atoi val = decimal val ↔ decimal val < 2 ^ 31 := by
  unfold atoi
  omega

theorem segmentExact (s : Segment) : s.read = s.info ↔ s.fits := by
  simp [Segment.read,Segment.info,Segment.fits,atoiExact]

theorem streamExact (seed : Nat) (s : Stream) : s.read seed = s.info seed ↔ ∀ seg ∈ s.first :: s.more,seg.fits := by
  simp only [Stream.read,Stream.info,StreamInfo.mk.injEq,true_and,List.map_inj_left,segmentExact]

structure Stream.fits (s : Stream) : Prop where
  numbers : ∀ seg ∈ s.first :: s.more,seg.fits
  plain : s.plain
  opens : s.opens

/-- A playlist is read back as it was sent exactly when it has at most three types, numbers that an int holds, no brace
in a key and no bracket in a key of a segment that is not the last of its list. -/
theorem playlistRoundTrip (p : Playlist) (l : Layout) : ykParsePlaylist (p.text l) [] = some p.info ↔
    p.streams.length < ykStreamTypeTotal ∧ ∀ s ∈ p.streams,s.fits := by
  constructor
  · intro back
    have few : p.streams.length < ykStreamTypeTotal := Classical.byContradiction fun many => by
      rw [playlistSegs,if_neg many] at back
      cases back
    have plain : ∀ s ∈ p.streams,s.plain := by
      rw [playlistSegs,if_pos few] at back
      obtain ⟨⟨rest,made⟩,ran,same⟩ := Option.map_eq_some_iff.mp back
      cases same
      have clean := plSegsPlain (fun stream mem seg inside => ?_) ran
      · exact fun s mem seg inside => clean _ (List.mem_map_of_mem mem) _ (List.mem_map_of_mem inside)
      · obtain ⟨s,_,rfl⟩ := List.mem_map.mp mem
        cases inside
    have opens : ∀ s ∈ p.streams,s.opens := Classical.byContradiction fun closes => by
      rw [playlistStopped p l plain closes] at back
      cases back
    rw [playlistRead p l few plain opens,Option.some_inj,Playlist.info,List.map_inj_left] at back
    exact ⟨few,fun s mem => ⟨(streamExact _ s).mp (back s mem),plain s mem,opens s mem⟩⟩
  · rintro ⟨few,fits⟩
    rw [playlistRead p l few (fun s mem => (fits s mem).plain) fun s mem => (fits s mem).opens,Option.some_inj,
      Playlist.info,List.map_inj_left]
    exact fun s mem => (streamExact _ s).mpr (fits s mem).numbers

end playlists

def oneSegment : Segment :=
  ⟨⟨ascii "0",by decide +kernel,by decide +kernel⟩,⟨ascii "9876543",by decide +kernel,by decide +kernel⟩,
    ⟨ascii "196",by decide +kernel,by decide +kernel⟩,true,⟨ascii "1de9f8k2",by decide +kernel,by decide +kernel⟩,
    ⟨ascii "182",by decide +kernel,by decide +kernel⟩⟩

def oneStream (type : StreamType) : Stream :=
  ⟨type,⟨ascii "31*50*7*",by decide +kernel,by decide +kernel⟩,oneSegment,[oneSegment],by decide +kernel⟩

def threeTypes : Playlist :=
  ⟨⟨ascii "1599",by decide +kernel,by decide +kernel⟩,oneStream .hd2,[oneStream .mp4,oneStream .flv],by decide +kernel⟩

def fourTypes : Playlist :=
  ⟨⟨ascii "1599",by decide +kernel,by decide +kernel⟩,oneStream .hd2,
    [oneStream .mp4,oneStream .hd3,oneStream .flv],by decide +kernel⟩

def plainLayout : Layout :=
  ⟨ascii "\x7b\"data\":[\x7b\"",ascii "\"title\":\"no\",\"",ascii "seconds\":\"392\",\"",ascii "reamsizes\"\x7d]\x7d",
    by decide,by decide,by decide,by decide,by decide⟩

example : ykParsePlaylist (threeTypes.text plainLayout) [] = some threeTypes.info := by decide +kernel

theorem fourTypesLost : ykParsePlaylist (fourTypes.text plainLayout) [] = none ∧
    ykParsePlaylist (fourTypes.text plainLayout) [] ≠ some fourTypes.info := by
  decide

end MipsElfExec.SnoopClient

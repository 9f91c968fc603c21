import MipsElfExec.Streaming.Flv

/-! The scan of the metadata of an flv file, and the bytes of its buffer that it looks at. The places come from the
file, and each of them is used before it is compared with the size of the buffer. -/
namespace MipsElfExec.Streaming
open CString Access

def Inside (p n : Nat) : Prop := p % 2 ^ 32 + n ≤ flvMetadataReadLen

instance (p n : Nat) : Decidable (Inside p n) := by unfold Inside; infer_instance

def Visits (stop : Nat → Bool) (good : Nat → Prop) (i left : Nat) : Prop :=
  ∀ k,i ≤ k → k < i + left → (∀ j,i ≤ j → j < k → stop j = false) → good k

def TestInside (buf : Bytes) (bufSize i : Nat) : Prop :=
  let size := bigEndian (window buf (i + 1) 3)
  isTag (byteOf buf i) = true → Inside (i + 8) 1 ∧ (byteOf buf (i + 8) = 0 → Inside (i + 9) 1 ∧
    (byteOf buf (i + 9) = 0 → Inside (i + 10) 1 ∧ (byteOf buf (i + 10) = 0 →
      i + size ≤ bufSize ∧ 0 < size → Inside (i + size + 12) 3)))

instance (buf : Bytes) (bufSize i : Nat) : Decidable (TestInside buf bufSize i) := by unfold TestInside; infer_instance

def firstTag (head : Bytes) : Option Nat :=
  (List.range' 0 head.length).find? (tagAt (filled flvMetadataReadLen head) head.length)

def NameInside (head : Bytes) (i : Nat) : Prop :=
  (search keyframesName (head.drop i)).isSome = true ∨
    ∀ k,i ≤ k → head[k]? = some 107 → 0 ∈ (filled flvMetadataReadLen head).drop k

section table
variable (toOff : Bytes → Int)

structure KeyTable.Fitting (t : KeyTable) (start : Int) : Prop where
  count : t.fposStart ≤ flvMetadataReadLen
  frames : Visits (fun k => decide (start < t.time toOff k)) (fun k => Inside (t.fposStart + 9 * t.total + 12 + 9 * k + 1) 8 ∧
    (t.time toOff k ≤ start → Inside (t.fposStart + 9 * k + 1) 8)) 0 t.total
  second : Inside (t.fposStart + 9 * 1 + 1) 8

structure ScanFits (head : Bytes) (start : Int) : Prop where
  tags : Visits (tagAt (filled flvMetadataReadLen head) head.length)
    (TestInside (filled flvMetadataReadLen head) head.length) 0 head.length
  name : ∀ tag ∈ firstTag head,isScriptTag (byteOf (filled flvMetadataReadLen head) tag) = true → NameInside head (tag + 1)
  table : ∀ t ∈ keyTable head,t.Fitting toOff start

end table

section visits
variable {stop : Nat → Bool} {good : Nat → Prop}

theorem visitsNone (i : Nat) : Visits stop good i 0 := by
  intro k low high
  omega

theorem visitsNext (i left : Nat) : Visits stop good i (left + 1) ↔
    good i ∧ (stop i = false → Visits stop good (i + 1) left) := by
  constructor
  · intro all
    refine ⟨all i i.le_refl (by omega) (by omega),fun going k low high before => ?_⟩
    refine all k (by omega) (by omega) fun j first last => ?_
    rcases Nat.eq_or_lt_of_le first with rfl | later
    · exact going
    · exact before j later last
  · rintro ⟨here,rest⟩ k low high before
    rcases Nat.eq_or_lt_of_le low with rfl | later
    · exact here
    · refine rest (before i i.le_refl later) k later (by omega) fun j first last => ?_
      exact before j (by omega) last

end visits

section bytes
variable {buf : Bytes} {p n : Nat}

theorem byteMeets (size : buf.length = flvMetadataReadLen) {post : Byte → Prop} :
    Meets (byteAt buf p) post ↔ Inside p 1 ∧ post (byteOf buf p) := by
  rw [meetsSplit fun meets => ?_]
  · refine and_congr_left fun _ => ?_
    unfold Safe byteAt Inside
    rw [meetsDeref,← size]
    constructor
    · rintro ⟨b,rest,shape,-⟩
      have long := congrArg List.length shape
      rw [List.length_drop,List.length_cons] at long
      omega
    · intro inside
      exact ⟨_,_,List.drop_eq_getElem_cons inside,trivial⟩
  · obtain ⟨b,run,holds⟩ := meets
    exact byteRead run ▸ holds

theorem bytesMeets (size : buf.length = flvMetadataReadLen) (some_ : 0 < n) {post : Bytes → Prop} :
    Meets (bytesAt buf p n) post ↔ Inside p n ∧ post (window buf p n) := by
  rw [meetsSplit fun meets => ?_]
  · refine and_congr_left fun _ => ?_
    have whole : (window buf p n).length = n ↔ Inside p n := by
      rw [window,List.length_take,List.length_drop,size,Inside]
      omega
    rw [← whole]
    simp [Safe,bytesAt]
  · obtain ⟨bytes,run,holds⟩ := meets
    exact bytesRead run ▸ holds

end bytes

section tags
variable {buf : Bytes} {bufSize i left : Nat}

theorem insideSmall {p n : Nat} (small : p < 2 ^ 32) : Inside p n ↔ p + n ≤ flvMetadataReadLen := by
  rw [Inside,Nat.mod_eq_of_lt small]

theorem tagSafe (size : buf.length = flvMetadataReadLen) (fits : i < flvMetadataReadLen) :
    Safe (tagHere buf bufSize i) ↔ TestInside buf bufSize i := by
  have limit : flvMetadataReadLen = 2 ^ 14 := rfl
  have here : Inside i 1 := (insideSmall (by omega)).mpr (by omega)
  have front (last : Inside (i + 10) 1) : Inside (i + 1) 3 := by
    rw [insideSmall (by omega)] at last ⊢
    omega
  unfold Safe tagHere TestInside
  simp only [meetsBind,meetsIf,meetsPure,byteMeets size,bytesMeets size (show 0 < 3 by decide),here,true_and,and_true]
  by_cases tag : isTag (byteOf buf i) = true
  · simp only [tag,Bool.true_eq_false,if_false,forall_const,ne_eq]
    refine and_congr_right fun _ => ?_
    by_cases first : byteOf buf (i + 8) = 0
    · simp only [first,not_true_eq_false,if_false,forall_const]
      refine and_congr_right fun _ => ?_
      by_cases second : byteOf buf (i + 9) = 0
      · simp only [second,not_true_eq_false,if_false,forall_const]
        refine and_congr_right fun last => ?_
        by_cases third : byteOf buf (i + 10) = 0
        · simp only [third,not_true_eq_false,if_false,forall_const,front last,true_and]
          split <;> simp_all
        · simp [third]
      · simp [second]
    · simp [first]
  · simp [tag]

theorem tagLoopSafe (size : buf.length = flvMetadataReadLen) (fits : i + left ≤ flvMetadataReadLen) :
    Safe (findTagLoop buf bufSize left i) ↔ Visits (tagAt buf bufSize) (TestInside buf bufSize) i left := by
  induction left generalizing i with
  | zero => exact iff_of_true ((meetsOk _).mpr trivial) (visitsNone i)
  | succ left ih =>
    rw [visitsNext,← tagSafe size (by omega),← ih (by omega),Safe,findTagLoop,meetsBind]
    constructor
    · intro meets
      obtain ⟨o,rest,here⟩ := tagRead meets
      refine ⟨meets.imp fun _ both => ⟨both.1,trivial⟩,fun going => ?_⟩
      rw [going] at here
      cases o with
      | none => exact rest
      | some size => cases here
    · rintro ⟨⟨o,run,-⟩,rest⟩
      refine ⟨o,run,?_⟩
      obtain ⟨_,same,here⟩ := tagRead (show Meets _ (· = o) from ⟨o,run,rfl⟩)
      rw [same] at here
      cases o with
      | none => exact rest here.symm
      | some size => exact (meetsPure _).mpr trivial

end tags

section names
variable {head : Bytes} {i left : Nat}

theorem nameLater (missing : ¬keyframesName <+: head.drop i) (inside : i < head.length) :
    (search keyframesName (head.drop i)).isSome = (search keyframesName (head.drop (i + 1))).isSome := by
  have shape : head.drop i = head[i] :: head.drop (i + 1) := List.drop_eq_getElem_cons inside
  rw [shape] at missing ⊢
  rw [search,if_neg (mt List.isPrefixOf_iff_prefix.mp missing),Option.isSome_map]

theorem nameNext (missing : ¬keyframesName <+: head.drop i) (inside : i < head.length)
    (here : head[i]? = some 107 → 0 ∈ (filled flvMetadataReadLen head).drop i) :
    NameInside head i ↔ NameInside head (i + 1) := by
  unfold NameInside
  rw [nameLater missing inside]
  refine or_congr_right ⟨fun all k low => all k (by omega),fun all k low => ?_⟩
  rcases Nat.eq_or_lt_of_le low with rfl | later
  · exact here
  · exact all k later

theorem nameSafe (fits : head.length ≤ flvMetadataReadLen) (all : i + left = head.length) :
    Safe (findKeyframes (filled flvMetadataReadLen head) left i) ↔ NameInside head i := by
  induction left generalizing i with
  | zero =>
    refine iff_of_true ((meetsOk _).mpr trivial) (.inr fun k low here => ?_)
    rw [List.getElem?_eq_none (by omega)] at here
    cases here
  | succ left ih =>
    have inside : i < head.length := by omega
    have limit : flvMetadataReadLen = 2 ^ 14 := rfl
    have byte : byteOf (filled flvMetadataReadLen head) i = head[i] := by
      have small : i % 2 ^ 32 = i := Nat.mod_eq_of_lt (by omega)
      rw [byteOf,small,List.getD_eq_getElem?_getD,filled,List.getElem?_append_left inside,List.getElem?_eq_getElem inside,
        Option.getD_some]
    have read : Inside i 1 := (insideSmall (by omega)).mpr (by omega)
    rw [Safe,findKeyframes,meetsBind,byteMeets (filledSize fits),byte]
    simp only [read,true_and,meetsIf]
    split
    · rename_i letter
      rw [meetsBind]
      simp only [strstrAt,strstr,headDrop inside.le]
      split
      · rename_i k found
        obtain ⟨rest,whole⟩ := cstrPrefix (head.drop i)
        have found := searchExtends found rest
        rw [whole] at found
        exact iff_of_true ((meetsOk _).mpr ((meetsPure _).mpr trivial)) (.inl (by rw [found]; rfl))
      · rename_i missing
        have other : ¬keyframesName <+: head.drop i := fun here => by cases missing.symm.trans (nameFirst here)
        split
        · rename_i nul
          rw [nameNext other inside fun _ => nul,← ih (by omega)]
          exact meetsOk _
        · rename_i open_
          refine iff_of_false (meetsError _) (not_or.mpr ⟨?_,fun all => ?_⟩)
          · have clean : (0 : Byte) ∉ head.drop i := fun mem => open_ (by
              rw [filled,List.drop_append_of_le_length inside.le]
              exact List.mem_append_left _ mem)
            rw [cstrOfNoNul clean] at missing
            rw [missing]
            exact Bool.false_ne_true
          · refine open_ (all i i.le_refl ?_)
            rw [List.getElem?_eq_getElem inside,letter]
    · rename_i other
      have shape : head.drop i = head[i] :: head.drop (i + 1) := List.drop_eq_getElem_cons inside
      have away : ¬keyframesName <+: head.drop i := fun here => by
        rw [shape] at here
        exact other (List.cons_prefix_cons.mp here).1.symm
      rw [nameNext away inside fun here => ?_,← ih (by omega)]
      · rfl
      · rw [List.getElem?_eq_getElem inside] at here
        exact absurd (Option.some.inj here) other

end names

section frames
variable {toOff : Bytes → Int} {buf : Bytes} {start : Int} {base i left : Nat}

def timeAfter (toOff : Bytes → Int) (buf : Bytes) (start : Int) (base k : Nat) : Bool :=
  decide (start < toOff (window buf (base + 9 * k + 1) 8))

theorem timesSafe (size : buf.length = flvMetadataReadLen) :
    Safe (timesLoop toOff buf start left i (base + 9 * i)) ↔
      Visits (timeAfter toOff buf start base) (fun k => Inside (base + 9 * k + 1) 8) i left := by
  induction left generalizing i with
  | zero => exact iff_of_true ((meetsOk _).mpr trivial) (visitsNone i)
  | succ left ih =>
    rw [visitsNext,← ih,Safe,timesLoop,meetsBind,bytesMeets size (by decide)]
    refine and_congr_right fun _ => ?_
    rw [meetsIf]
    unfold timeAfter
    split
    · rename_i after
      exact iff_of_true ((meetsPure _).mpr trivial) fun going => absurd after (by simpa using going)
    · rename_i before
      rw [imp_iff_right (by simpa using before)]
      rfl

theorem placesStay (base : Nat) {n : Nat} (all : ∀ k < n,Inside (base + 9 * k + 1) 8) (k : Nat) (inside : k < n) :
    (base + 1) % 2 ^ 32 + 9 * k + 8 ≤ flvMetadataReadLen := by
  have limit : flvMetadataReadLen = 2 ^ 14 := rfl
  induction k with
  | zero => simpa [Inside] using all 0 inside
  | succ k ih =>
    have before := ih (by omega)
    have here : (base + 9 * (k + 1) + 1) % 2 ^ 32 + 8 ≤ flvMetadataReadLen := all (k + 1) inside
    omega

end frames

section scan
variable (toOff : Bytes → Int) {head : Bytes} {start : Int}

theorem leading (p : Nat → Bool) (i n : Nat) : ∃ m ≤ n,((List.range' i n).takeWhile p).length = m ∧
    (∀ j,i ≤ j → j < i + m → p j = true) ∧ (m < n → p (i + m) = false) := by
  induction n generalizing i with
  | zero => exact ⟨0,le_rfl,rfl,by omega,by omega⟩
  | succ n ih =>
    rw [List.range'_succ,List.takeWhile_cons]
    cases here : p i with
    | false => exact ⟨0,by omega,rfl,by omega,fun _ => here⟩
    | true =>
      obtain ⟨m,least,size,before,stop⟩ := ih (i + 1)
      refine ⟨m + 1,by omega,by simp [size],fun j low high => ?_,fun inside => ?_⟩
      · rcases Nat.eq_or_lt_of_le low with rfl | later
        · exact here
        · exact before j later (by omega)
      · have last := stop (by omega)
        rwa [Nat.add_assoc,Nat.add_comm 1] at last

theorem tableFits (t : KeyTable) (count : t.fposStart ≤ flvMetadataReadLen) :
    (Visits (timeAfter toOff t.buf start (t.fposStart + 9 * t.total + 12))
        (fun k => Inside (t.fposStart + 9 * t.total + 12 + 9 * k + 1) 8) 0 t.total ∧
      Inside (t.fposStart + 9 * t.chosen toOff start + 1) 8 ∧ Inside (t.fposStart + 9 * 1 + 1) 8) ↔
    t.Fitting toOff start := by
  have limit : flvMetadataReadLen = 2 ^ 14 := rfl
  obtain ⟨m,least,size,before,stop⟩ := leading (fun k => decide (t.time toOff k ≤ start)) 0 t.total
  have chosen : t.chosen toOff start = m - 1 := by rw [KeyTable.chosen,size]
  simp only [Nat.zero_add,decide_eq_true_eq,decide_eq_false_iff_not] at before stop
  have early (j : Nat) (inside : j < m) : decide (start < t.time toOff j) = false := by
    rw [decide_eq_false_iff_not]
    exact Int.not_lt.mpr (before j j.zero_le inside)
  rw [chosen]
  constructor
  · rintro ⟨times,place,second⟩
    refine ⟨count,fun k low high going => ⟨times k low high going,fun until_ => ?_⟩,second⟩
    have reached : k < m := by
      by_contra beyond
      refine absurd (stop (by omega)) (not_not.mpr ?_)
      rcases Nat.eq_or_lt_of_le (Nat.not_lt.mp beyond) with rfl | later
      · exact until_
      · have passed := going m m.zero_le later
        rw [decide_eq_false_iff_not] at passed
        exact Int.not_lt.mp passed
    have stays := placesStay (t.fposStart + 9 * t.total + 12) (n := m)
      (fun j inside => times j j.zero_le (by omega) fun i _ below => early i (by omega)) (m - 1) (by omega)
    rw [insideSmall (by omega)] at place ⊢
    omega
  · rintro ⟨-,frames,second⟩
    refine ⟨fun k low high going => (frames k low high going).1,?_,second⟩
    rcases Nat.eq_zero_or_pos m with rfl | some_
    · rw [insideSmall (by omega)] at second ⊢
      omega
    · exact (frames (m - 1) (Nat.zero_le _) (by omega) fun j _ below => early j (by omega)).2
        (before (m - 1) (Nat.zero_le _) (by omega))

theorem tagMeets {buf : Bytes} {bufSize : Nat} (size : buf.length = flvMetadataReadLen) (fits : bufSize ≤ flvMetadataReadLen)
    {post : Option Nat → Prop} : Meets (ngxHttpFlvKfFindTagPos buf bufSize) (fun o => post (o.map Prod.fst)) ↔
      Visits (tagAt buf bufSize) (TestInside buf bufSize) 0 bufSize ∧
        post ((List.range' 0 bufSize).find? (tagAt buf bufSize)) := by
  rw [← tagLoopSafe size (by omega),← meetsMap]
  refine (meetsSplit fun meets => ?_).trans (and_congr_left fun _ => ?_)
  · obtain ⟨o,holds,same⟩ := tagLoopRead ((meetsMap _ _).mp meets)
    rwa [same] at holds
  · exact meetsMap _ _

theorem keyframesMeets {i left : Nat} (fits : head.length ≤ flvMetadataReadLen) (all : i + left = head.length)
    {post : Option Nat → Prop} : Meets (findKeyframes (filled flvMetadataReadLen head) left i) post ↔
      NameInside head i ∧ post ((search keyframesName (head.drop i)).map (i + ·)) := by
  rw [← nameSafe fits all]
  exact meetsSplit fun meets => keyframesRead fits all meets

theorem timesMeets {buf : Bytes} (size : buf.length = flvMetadataReadLen) {base left : Nat} {post : Nat → Prop} :
    Meets (timesLoop toOff buf start left 0 base) post ↔
      Visits (timeAfter toOff buf start base) (fun k => Inside (base + 9 * k + 1) 8) 0 left ∧
        post ((List.range' 0 left).takeWhile fun k => decide (toOff (window buf (base + 9 * k + 1) 8) ≤ start)).length := by
  rw [← timesSafe size]
  refine meetsSplit fun meets => ?_
  have ends := timesRead meets
  rwa [Nat.zero_add] at ends

def tableBehind (head : Bytes) (tag k : Nat) : KeyTable :=
  ⟨filled flvMetadataReadLen head,tag + 1 + k + 30,bigEndian (window (filled flvMetadataReadLen head) (tag + 1 + k + 26) 4)⟩

theorem keyTableFound (head : Bytes) : keyTable head = (firstTag head).bind fun tag =>
    if isScriptTag (byteOf (filled flvMetadataReadLen head) tag) = false then none
    else (search keyframesName (head.drop (tag + 1))).map (tableBehind head tag) := by
  unfold keyTable firstTag
  simp only [bind,Option.map_eq_bind]
  rfl

def TagFits (head : Bytes) (start : Int) (o : Option Nat) : Prop :=
  ∀ tag ∈ o,isScriptTag (byteOf (filled flvMetadataReadLen head) tag) = true → NameInside head (tag + 1) ∧
    ∀ k ∈ search keyframesName (head.drop (tag + 1)),(tableBehind head tag k).Fitting toOff start

theorem scanParts : ScanFits toOff head start ↔ Visits (tagAt (filled flvMetadataReadLen head) head.length)
    (TestInside (filled flvMetadataReadLen head) head.length) 0 head.length ∧ TagFits toOff head start (firstTag head) := by
  have found (t : KeyTable) : t ∈ keyTable head ↔ ∃ tag ∈ firstTag head,
      isScriptTag (byteOf (filled flvMetadataReadLen head) tag) = true ∧
        ∃ k ∈ search keyframesName (head.drop (tag + 1)),tableBehind head tag k = t := by
    rw [keyTableFound]
    simp only [Option.mem_def,Option.bind_eq_some_iff,Option.ite_none_left_eq_some,Option.map_eq_some_iff,
      Bool.not_eq_false]
  constructor
  · intro fits
    refine ⟨fits.tags,fun tag here script => ⟨fits.name tag here script,fun k name => ?_⟩⟩
    exact fits.table _ ((found _).mpr ⟨tag,here,script,k,name,rfl⟩)
  · rintro ⟨tags,behind⟩
    refine ⟨tags,fun tag here script => (behind tag here script).1,fun t table => ?_⟩
    obtain ⟨tag,here,script,k,name,rfl⟩ := (found t).mp table
    exact (behind tag here script).2 k name

theorem offsetSafe (fits : head.length ≤ flvMetadataReadLen) :
    Safe (ngxHttpFlvKfComputeOffset toOff (filled flvMetadataReadLen head) head.length start) ↔
      ScanFits toOff head start := by
  have size := filledSize fits
  have limit : flvMetadataReadLen = 2 ^ 14 := rfl
  rw [scanParts,Safe,ngxHttpFlvKfComputeOffset,meetsBind]
  refine (show _ ↔ Meets _ (fun o => TagFits toOff head start (o.map Prod.fst)) from meetsCongr fun o run => ?_).trans
    (tagMeets size fits)
  cases o with
  | none => exact iff_of_true ((meetsPure _).mpr trivial) fun _ mem => by cases mem
  | some place =>
    obtain ⟨tag,tagSize⟩ := place
    have inside : tag < head.length := by
      obtain ⟨_,same,first⟩ := tagLoopRead (show Meets _ (· = some (tag,tagSize)) from ⟨_,run,rfl⟩)
      rw [same] at first
      have mem := List.mem_of_find?_eq_some first.symm
      rw [List.mem_range'_1] at mem
      omega
    have read : Inside tag 1 := (insideSmall (by omega)).mpr (by omega)
    unfold TagFits
    dsimp only [Option.map_some]
    simp only [Option.mem_def,Option.some.injEq,forall_eq']
    rw [meetsBind,byteMeets size,meetsIf,and_iff_right read]
    split
    · rename_i other
      exact iff_of_true ((meetsPure _).mpr trivial) fun script => by rw [other] at script; cases script
    · rename_i script
      rw [imp_iff_right (Bool.not_eq_false _ ▸ script),meetsBind,keyframesMeets fits (by omega)]
      refine and_congr_right fun _ => ?_
      cases name : search keyframesName (head.drop (tag + 1)) with
      | none => exact iff_of_true ((meetsPure _).mpr trivial) fun _ mem => by cases mem
      | some k =>
        have bound := searchBound name
        rw [List.length_drop] at bound
        simp only [Option.map_some,Option.some.injEq,forall_eq']
        rw [meetsBind,bytesMeets size (by decide),insideSmall (by omega)]
        have counted : (tableBehind head tag k).Fitting toOff start ↔
            (tableBehind head tag k).fposStart ≤ flvMetadataReadLen ∧ (tableBehind head tag k).Fitting toOff start :=
          ⟨fun fits => ⟨fits.count,fits⟩,And.right⟩
        rw [counted]
        refine and_congr_right fun count => ?_
        rw [← tableFits toOff _ count,meetsBind,timesMeets toOff size]
        refine and_congr_right fun _ => ?_
        rw [lastBefore,meetsBind,bytesMeets size (by decide),meetsBind,bytesMeets size (by decide),meetsPure,and_true]
        rfl

/-- The scan of a file stays inside of the buffer that its first 16 KB are read into exactly when the places that these
bytes tell lie inside. -/
theorem scanInsideExactly (file : File) (start : Int) : Safe (ngxHttpFlvTimeToOffset toOff file start) ↔
    (file.readable = true → ScanFits toOff (file.content.take flvMetadataReadLen) start) := by
  unfold ngxHttpFlvTimeToOffset
  dsimp only
  split
  · rename_i unreadable
    exact iff_of_true ((meetsOk _).mpr trivial) fun readable => by rw [readable] at unreadable; cases unreadable
  · rename_i readable
    rw [imp_iff_right (Bool.not_eq_false _ ▸ readable)]
    exact offsetSafe toOff (List.length_take_le _ _)

end scan

def longMetadata : Bytes := ngxFlvHeader ++ [18,0,63,240,0,0,0,0,0,0,0] ++ List.replicate 16368 97

def longFile : File := ⟨longMetadata,true,by decide +kernel⟩

theorem longOutside : ngxHttpFlvTimeToOffset doubleToInt longFile 1 = .error .read ∧
    ¬Safe (ngxHttpFlvTimeToOffset doubleToInt longFile 1) := by
  have run : ngxHttpFlvTimeToOffset doubleToInt longFile 1 = .error .read := by decide +kernel
  refine ⟨run,?_⟩
  rw [run]
  exact meetsError _

end MipsElfExec.Streaming

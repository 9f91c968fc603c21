import MipsElfExec.Adv.Filter
import MipsElfExec.Lib.Checked
import MipsElfExec.Lib.LastMatch

/-! The playlist that a player is answered with: what lies between its first entry and the entry behind its last
advertisement is left out. -/
namespace MipsElfExec.Adv
open CString Access

def videosOther : Bytes := ascii "videos/other/"
def extinf : Bytes := ascii "#EXTINF"

def bytesAt (cur : Bytes) (size : Int) : Checked Bytes :=
  if 0 ≤ size ∧ size ≤ cur.length then .ok (cur.take size.toNat) else .error .read

def markLoop : Nat → Bytes → Checked Bytes
  | 0,_ => .error .endless
  | more + 1,prvStr => do
    match ← strstrChecked prvStr videosOther with
    | none => return prvStr
    | some str => markLoop more (str.drop videosOther.length)

-- The buffer with the value, when one is returned. Each pointer is read for the log before it is copied from.
def ngxHttpMakeGetDcAmdtResponse (resp old : Bytes) (oldAdLen : Nat) : Checked (Bytes × Option Int) := do
  match ← strstrChecked old videosOther with
  | none => return (resp,none)
  | some str =>
    let adStart ← strstrChecked old extinf
    let prvStr ← markLoop (old.length + 1) (str.drop videosOther.length)
    let adEnd ← strstrChecked prvStr extinf
    let some adStart := adStart | .error .null
    let start : Int := old.length - adStart.length
    let resp ← blit resp 0 (← bytesAt old start)
    let some adEnd := adEnd | .error .null
    let left : Int := oldAdLen - (old.length - adEnd.length)
    let resp ← blit resp start.toNat (← bytesAt adEnd left)
    return (resp,some (start + left))

structure Entry where
  front : Bytes
  url : Bytes
  rest : Bytes
  line : front.getLast? = some 10 ∧ (10 : Byte) ∉ url ∧ (rest = [] ∨ rest.head? = some 10)
  once : search extinf (front ++ (url ++ rest)) = none

def Entry.text (entry : Entry) : Bytes := extinf ++ (entry.front ++ (entry.url ++ entry.rest))

def Entry.ad (entry : Entry) : Bool := (search videosOther entry.url).isSome

def pieces (head : Bytes) (entries : List Entry) (tail : Bytes) : List Bytes := head :: (entries.map Entry.text ++ [tail])

structure Playlist where
  head : Bytes
  entries : List Entry
  tail : Bytes
  once : search extinf head = none ∧ search extinf tail = none
  joined : Joined 10 (pieces head entries tail)
  clean : (0 : Byte) ∉ (pieces head entries tail).flatten

def Playlist.text (list : Playlist) : Bytes := (pieces list.head list.entries list.tail).flatten

def Playlist.wanted (list : Playlist) : Bytes :=
  (pieces list.head (list.entries.filter fun entry => !entry.ad) list.tail).flatten

def Playlist.Cleared (list : Playlist) (answer : Bytes × Option Int) : Prop :=
  answer = (filled bigVfBufMax list.wanted,some (list.wanted.length : Int))

def Playlist.Leading (list : Playlist) : Prop := ∃ ads rest,list.entries = ads ++ rest ∧ rest ≠ [] ∧ (∀ entry ∈ ads,entry.ad = true) ∧
  (∀ piece ∈ rest.map Entry.text ++ [list.tail],search videosOther piece = none) ∧
  (ads = [] → (search videosOther list.head).isSome = true)

section texts
variable {text : Bytes} {size more start k : Nat}

theorem markFirst : ∃ more,videosOther = 118 :: more ∧ (118 : Byte) ∉ more := ⟨ascii "ideos/other/",by decide,by decide⟩

theorem markRun (clean : (0 : Byte) ∉ text) (enough : text.length < more) :
    markLoop more (text ++ [0]) = .ok (behind videosOther text ++ [0]) := by
  induction more generalizing text with
  | zero => omega
  | succ more ih =>
    rw [markLoop,strstrText clean]
    cases found : search videosOther text with
    | none =>
      rw [behindNone found]
      rfl
    | some k =>
      have bound := searchBound found
      have some_ : 0 < videosOther.length := by decide
      change markLoop more ((text.drop k ++ [0]).drop videosOther.length) = _
      rw [List.drop_append_of_le_length (by rw [List.length_drop]; omega),List.drop_drop,
        ih (fun mem => clean (List.mem_of_mem_drop mem)) (by rw [List.length_drop]; omega)]
      obtain ⟨mark,same,other⟩ := markFirst
      rw [same] at found ⊢
      rw [← behindFirst other found]

theorem bytesText {cur bytes : Bytes} {count : Int} (front : bytes <+: cur) (same : count = (bytes.length : Int)) :
    bytesAt cur count = .ok bytes := by
  have bound := front.length_le
  rw [bytesAt,if_pos ⟨by omega,by omega⟩,same,Int.toNat_natCast,List.prefix_iff_eq_take.mp front |>.symm]

theorem responseText (clean : (0 : Byte) ∉ text) (room : text.length ≤ size) :
    ngxHttpMakeGetDcAmdtResponse (filled size []) (text ++ [0]) text.length =
      if search videosOther text = none then .ok (filled size [],none)
      else match search extinf text,search extinf (behind videosOther text) with
        | some start,some k =>
          let answer := text.take start ++ (behind videosOther text).drop k
          .ok (filled size answer,some (answer.length : Int))
        | _,_ => .error .null := by
  unfold ngxHttpMakeGetDcAmdtResponse
  rw [strstrText clean,strstrText clean]
  cases found : search videosOther text with
  | none => rfl
  | some m =>
    have bound := searchBound found
    have run : markLoop ((text ++ [0]).length + 1) ((text.drop m ++ [0]).drop videosOther.length) =
        .ok (behind videosOther text ++ [0]) := by
      obtain ⟨mark,same,other⟩ := markFirst
      rw [List.drop_append_of_le_length (by rw [List.length_drop]; omega),List.drop_drop,
        markRun (fun mem => clean (List.mem_of_mem_drop mem)) (by simp; omega)]
      rw [same] at found ⊢
      rw [← behindFirst other found]
    obtain ⟨before,whole⟩ := behindSuffix videosOther text
    have cleanEnd : (0 : Byte) ∉ behind videosOther text := fun mem => clean ((behindSuffix videosOther text).subset mem)
    simp only [Option.map_some,bind,Except.bind,run,strstrText cleanEnd]
    cases first : search extinf text with
    | none => rfl
    | some start =>
      have inside := searchBound first
      have place : (text.take start).length = start := by rw [List.length_take]; omega
      have offset : ((text ++ [0]).length : Int) - ((text.drop start ++ [0]).length : Int) = start := by
        simp only [List.length_append,List.length_singleton,List.length_drop]
        omega
      have front : text.take start <+: text ++ [0] := (List.take_prefix start text).trans (List.prefix_append text [0])
      have copied := blitNext (show ([] : Bytes).length ≤ size by simp) (text.take start)
      rw [List.nil_append,List.length_nil,if_pos (by omega)] at copied
      simp only [Option.map_some,offset,bytesText front (by rw [place]),copied,Int.toNat_natCast]
      cases second : search extinf (behind videosOther text) with
      | none => rfl
      | some k =>
        have behindBound := searchBound second
        have sizes := congrArg List.length whole
        rw [List.length_append] at sizes
        have order : start ≤ before.length + k := searchEarlier (by rw [whole]; exact first) second
        have left : (text.length : Int) - (((text ++ [0]).length : Int) - (((behind videosOther text).drop k ++ [0]).length : Int)) =
            ((behind videosOther text).drop k).length := by
          simp only [List.length_append,List.length_singleton,List.length_drop]
          omega
        have more := blitNext (show (text.take start).length ≤ size by omega) ((behind videosOther text).drop k)
        rw [if_pos (by rw [List.length_append,List.length_drop]; omega),place] at more
        simp only [Option.map_some,left,bytesText (List.prefix_append _ [0]) rfl,more]
        rw [List.length_append,place]
        rfl

theorem responseLost (clean : (0 : Byte) ∉ text) (room : text.length ≤ size) (marked : (search videosOther text).isSome = true)
    (lost : search extinf (behind videosOther text) = none) :
    ngxHttpMakeGetDcAmdtResponse (filled size []) (text ++ [0]) text.length = .error .null := by
  rw [responseText clean room,if_neg (Option.isSome_iff_ne_none.mp marked),lost]
  cases search extinf text <;> rfl

end texts

def Entry.Marked (entry : Entry) : Prop := (search videosOther entry.text).isSome = true

instance (entry : Entry) : Decidable entry.Marked := by unfold Entry.Marked; infer_instance

section entries_
variable {entry : Entry} {entries before rest : List Entry} {head tail front : Bytes}

theorem marksApart : videosOther ≠ [] ∧ (10 : Byte) ∉ videosOther.dropLast ∧ extinf ≠ [] ∧ (10 : Byte) ∉ extinf.dropLast := by decide

theorem adMarked (ad : entry.ad = true) : entry.Marked := by
  have found := searchSome ad (extinf ++ entry.front) entry.rest
  rwa [List.append_assoc] at found

theorem entryEnds (marked : entry.Marked) : search extinf (behind videosOther entry.text) = none := by
  obtain ⟨mark,same,-⟩ := markFirst
  have skip : search (118 :: mark) (extinf ++ (entry.front ++ (entry.url ++ entry.rest))) = _ := searchSkip (by decide) _
  rw [← same] at skip
  have body : (search videosOther (entry.front ++ (entry.url ++ entry.rest))).isSome = true := by
    have whole := marked
    unfold Entry.Marked Entry.text at whole
    rwa [skip,Option.isSome_map] at whole
  rw [Entry.text,behindMarked body extinf]
  obtain ⟨part,whole⟩ := behindSuffix videosOther (entry.front ++ (entry.url ++ entry.rest))
  exact searchSuffix part (whole.symm ▸ entry.once)

theorem tagNext (apart : Apart 10 front (rest.map Entry.text ++ [tail]).flatten) (none_ : search extinf front = none)
    (tailNone : search extinf tail = none) : search extinf (front ++ (rest.map Entry.text ++ [tail]).flatten) =
      if rest = [] then none else some front.length := by
  rw [searchApart marksApart.2.2.1 marksApart.2.2.2 apart,none_,Option.none_or]
  cases rest with
  | nil => simp [tailNone]
  | cons entry rest =>
    have here := searchSelf extinf (entry.front ++ (entry.url ++ entry.rest) ++ (rest.map Entry.text ++ [tail]).flatten)
    rw [List.map_cons,List.cons_append,List.flatten_cons,Entry.text,List.append_assoc,here]
    simp

theorem lastMarked (entries : List Entry) : (∀ entry ∈ entries,¬entry.Marked) ∨
    ∃ before entry rest,entries = before ++ entry :: rest ∧ entry.Marked ∧ ∀ other ∈ rest,¬other.Marked := by
  induction entries with
  | nil => exact .inl fun _ mem => nomatch mem
  | cons first entries ih =>
    rcases ih with none_ | ⟨before,entry,rest,rfl,marked,last⟩
    · by_cases marked : first.Marked
      · exact .inr ⟨[],first,entries,rfl,marked,none_⟩
      · exact .inl (List.forall_mem_cons.mpr ⟨marked,none_⟩)
    · exact .inr ⟨first :: before,entry,rest,rfl,marked,last⟩

end entries_

section lists
variable {list : Playlist} {entry : Entry} {before rest : List Entry}

theorem textSplit (same : list.entries = before ++ rest) :
    list.text = list.head ++ (before.flatMap Entry.text ++ (rest.map Entry.text ++ [list.tail]).flatten) := by
  simp [Playlist.text,pieces,same,List.flatMap]

theorem wantedSplit (same : list.entries = before ++ rest) (plain : ∀ other ∈ rest,¬other.Marked) : list.wanted =
    list.head ++ ((before.filter fun entry => !entry.ad).flatMap Entry.text ++ (rest.map Entry.text ++ [list.tail]).flatten) := by
  have keep : (rest.filter fun entry => !entry.ad) = rest := by
    refine List.filter_eq_self.mpr fun other mem => ?_
    cases ad : other.ad with
    | false => rfl
    | true => exact absurd (adMarked ad) (plain other mem)
  simp [Playlist.wanted,pieces,same,keep,List.flatMap]

theorem firstTag (some_ : list.entries ≠ []) : search extinf list.text = some list.head.length := by
  have next : search extinf list.text = if list.entries = [] then none else some list.head.length :=
    tagNext list.joined.1 list.once.1 list.once.2
  rwa [if_neg some_] at next

theorem plainPieces (plain : ∀ other ∈ rest,¬other.Marked) (tail : search videosOther list.tail = none) :
    ∀ piece ∈ rest.map Entry.text ++ [list.tail],search videosOther piece = none := by
  intro piece mem
  rcases List.mem_append.mp mem with entry | last
  · obtain ⟨other,inside,rfl⟩ := List.mem_map.mp entry
    exact Option.not_isSome_iff_eq_none.mp (plain other inside)
  · rw [List.mem_singleton.mp last]
    exact tail

theorem cutBehind (same : list.entries = before ++ entry :: rest) (marked : entry.Marked)
    (plain : ∀ piece ∈ rest.map Entry.text ++ [list.tail],search videosOther piece = none) :
    behind videosOther list.text = behind videosOther entry.text ++ (rest.map Entry.text ++ [list.tail]).flatten ∧
    search extinf (behind videosOther list.text) = if rest = [] then none else some (behind videosOther entry.text).length := by
  have shape : pieces list.head list.entries list.tail =
      (list.head :: before.map Entry.text) ++ entry.text :: (rest.map Entry.text ++ [list.tail]) := by
    simp [pieces,same]
  have joined := list.joined
  rw [shape] at joined
  have cut := behindPieces _ marksApart.1 marksApart.2.1 joined marked plain
  rw [← shape] at cut
  have apart := apartSuffix (joinedDrop joined).1 (behindSuffix videosOther entry.text)
  exact ⟨cut,(congrArg (search extinf) cut).trans (tagNext apart (entryEnds marked) list.once.2)⟩

theorem cutCleared (room : list.text.length < bigVfBufMax) (same : list.entries = before ++ rest)
    (plain : ∀ other ∈ rest,¬other.Marked) (marked : (search videosOther list.text).isSome = true) {cut : Bytes}
    (cutText : behind videosOther list.text = cut ++ (rest.map Entry.text ++ [list.tail]).flatten)
    (next : search extinf (behind videosOther list.text) = if rest = [] then none else some cut.length) :
    Meets (ngxHttpMakeGetDcAmdtResponse (filled bigVfBufMax []) (list.text ++ [0]) list.text.length) list.Cleared ↔
      rest ≠ [] ∧ ∀ entry ∈ before,entry.ad = true := by
  have clean : (0 : Byte) ∉ list.text := list.clean
  by_cases none_ : rest = []
  · rw [responseLost clean room.le marked (next.trans (if_pos none_))]
    exact iff_of_false (meetsError _) fun both => both.1 none_
  · have some_ : list.entries ≠ [] := by simp [same,none_]
    have front : list.text.take list.head.length = list.head := by rw [textSplit same,List.take_left]
    rw [responseText clean room.le,if_neg (Option.isSome_iff_ne_none.mp marked),next,if_neg none_,firstTag some_]
    simp only [meetsOk,front,cutText,List.drop_left,Playlist.Cleared,wantedSplit same plain]
    constructor
    · intro answer
      have lengths := congrArg (fun answer => answer.2) answer
      simp only [Option.some.injEq,List.length_append,Int.natCast_inj] at lengths
      have gone := List.eq_nil_of_length_eq_zero (l := (before.filter fun entry => !entry.ad).flatMap Entry.text) (by omega)
      refine ⟨none_,fun entry mem => ?_⟩
      cases ad : entry.ad with
      | true => rfl
      | false =>
        have empty := List.flatMap_eq_nil_iff.mp gone entry (List.mem_filter.mpr ⟨mem,by rw [ad]; rfl⟩)
        exact absurd (List.append_eq_nil_iff.mp empty).1 marksApart.2.2.1
    · rintro ⟨-,ads⟩
      have gone : (before.filter fun entry => !entry.ad) = [] := by
        refine List.filter_eq_nil_iff.mpr fun entry mem => ?_
        rw [ads entry mem]
        decide
      rw [gone,List.flatMap_nil,List.nil_append]

end lists

theorem removalExactly (list : Playlist) (room : list.text.length < bigVfBufMax) :
    Meets (ngxHttpMakeGetDcAmdtResponse (filled bigVfBufMax []) (list.text ++ [0]) list.text.length) list.Cleared ↔ list.Leading := by
  have clean : (0 : Byte) ∉ list.text := list.clean
  cases tail : search videosOther list.tail with
  | some k =>
    have found : (search videosOther list.tail).isSome = true := by rw [tail]; rfl
    have whole : list.text = (list.head ++ (list.entries.map Entry.text).flatten) ++ list.tail := by
      simp [Playlist.text,pieces]
    have marked := searchSome found (list.head ++ (list.entries.map Entry.text).flatten) []
    rw [List.append_nil,← whole] at marked
    obtain ⟨part,same⟩ := behindSuffix videosOther list.tail
    have lost : search extinf (behind videosOther list.text) = none := by
      rw [whole,behindMarked found]
      exact searchSuffix part (same.symm ▸ list.once.2)
    rw [responseLost clean room.le marked lost]
    refine iff_of_false (meetsError _) ?_
    rintro ⟨ads,rest,-,-,-,plain,-⟩
    rw [plain list.tail (List.mem_append_right _ List.mem_cons_self)] at tail
    cases tail
  | none =>
    rcases lastMarked list.entries with plain | ⟨before,entry,rest,same,marked,plain⟩
    · have last := plainPieces plain tail
      cases head : search videosOther list.head with
      | none =>
        have none_ : search videosOther list.text = none :=
          (searchPieces marksApart.1 marksApart.2.1 list.joined).mpr (List.forall_mem_cons.mpr ⟨head,last⟩)
        rw [responseText clean room.le,if_pos none_,meetsOk]
        refine iff_of_false (fun answer => nomatch congrArg (fun answer => answer.2) answer) ?_
        rintro ⟨ads,rest,same,-,all,-,first⟩
        cases ads with
        | nil => simp [head] at first
        | cons ad ads =>
          have inside : ad ∈ list.entries := by rw [same]; exact List.mem_cons_self
          exact plain ad inside (adMarked (all ad List.mem_cons_self))
      | some k =>
        have found : (search videosOther list.head).isSome = true := by rw [head]; rfl
        have marked := searchSome found [] (list.entries.map Entry.text ++ [list.tail]).flatten
        have cut := behindPieces [] marksApart.1 marksApart.2.1 list.joined found last
        obtain ⟨part,whole⟩ := behindSuffix videosOther list.head
        have next := tagNext (apartSuffix list.joined.1 (behindSuffix videosOther list.head))
          (searchSuffix part (whole.symm ▸ list.once.1)) list.once.2
        rw [cutCleared room (show list.entries = [] ++ list.entries from rfl) plain marked cut ((congrArg (search extinf) cut).trans next)]
        constructor
        · rintro ⟨some_,-⟩
          exact ⟨[],list.entries,rfl,some_,List.forall_mem_nil _,last,fun _ => found⟩
        · rintro ⟨ads,rest,same,some_,-⟩
          exact ⟨by simp [same,some_],List.forall_mem_nil _⟩
    · have last := plainPieces plain tail
      obtain ⟨cut,next⟩ := cutBehind same marked last
      have found : (search videosOther list.text).isSome = true := by
        have whole := searchSome marked (list.head ++ before.flatMap Entry.text) (rest.map Entry.text ++ [list.tail]).flatten
        rw [textSplit same]
        simpa using whole
      rw [List.append_cons] at same
      rw [cutCleared room same plain found cut next]
      constructor
      · rintro ⟨some_,ads⟩
        exact ⟨before ++ [entry],rest,same,some_,ads,last,fun none_ => by simp at none_⟩
      · rintro ⟨ads,kept,split,some_,all,clear,-⟩
        rcases List.append_eq_append_iff.mp (same.symm.trans split) with ⟨more,front,back⟩ | ⟨more,front,back⟩
        · refine ⟨fun none_ => some_ ?_,fun other mem => all other (front ▸ List.mem_append_left more mem)⟩
          rw [none_] at back
          exact (List.append_eq_nil_iff.mp back.symm).2
        · -- The marked entry is the last that is cut: it is no part of what is kept.
          rcases List.eq_nil_or_concat more with rfl | ⟨others,final,rfl⟩
          · rw [List.append_nil] at front
            rw [List.nil_append] at back
            exact ⟨back ▸ some_,fun other mem => all other (front ▸ mem)⟩
          · rw [List.concat_eq_append,← List.append_assoc] at front
            have same' := (List.append_inj' front rfl).2
            have inside : entry ∈ kept := by
              rw [back,List.concat_eq_append,List.singleton_inj.mp same']
              simp
            have plain' := clear entry.text (List.mem_append_left _ (List.mem_map_of_mem inside))
            rw [Entry.Marked,plain'] at marked
            cases marked

def listHead : Bytes := ascii "#EXTM3U\n"
def listTail : Bytes := ascii "#EXT-X-ENDLIST\n"

def firstEntry : Entry := ⟨ascii ":10,\n",ascii "http://a/videos/v0/1.ts",[10],by decide +kernel,by decide +kernel⟩
def adEntry : Entry := ⟨ascii ":15,\n",ascii "http://a/videos/other/2.ts",[10],by decide +kernel,by decide +kernel⟩
def secondEntry : Entry := ⟨ascii ":10,\n",ascii "http://a/videos/v0/3.ts",[10],by decide +kernel,by decide +kernel⟩

theorem linesJoined {lines : List Bytes} (breaks : ∀ line ∈ lines,line.getLast? = some 10) : Joined 10 lines := by
  induction lines with
  | nil => trivial
  | cons line lines ih => exact ⟨.inl (breaks line List.mem_cons_self),ih fun other mem => breaks other (List.mem_cons_of_mem _ mem)⟩

def adFirst : Playlist := ⟨listHead,[adEntry,firstEntry,secondEntry],listTail,by decide +kernel,
  linesJoined (by decide +kernel),by decide +kernel⟩
def adMiddle : Playlist := ⟨listHead,[firstEntry,adEntry,secondEntry],listTail,by decide +kernel,
  linesJoined (by decide +kernel),by decide +kernel⟩
def adLast : Playlist := ⟨listHead,[firstEntry,secondEntry,adEntry],listTail,by decide +kernel,
  linesJoined (by decide +kernel),by decide +kernel⟩
def adNone : Playlist := ⟨listHead,[firstEntry,secondEntry],listTail,by decide +kernel,
  linesJoined (by decide +kernel),by decide +kernel⟩

theorem removalFirst : Meets (ngxHttpMakeGetDcAmdtResponse (filled bigVfBufMax []) (adFirst.text ++ [0]) adFirst.text.length) adFirst.Cleared :=
  (removalExactly adFirst (by decide +kernel)).mpr ⟨[adEntry],[firstEntry,secondEntry],rfl,by simp,by decide +kernel,by decide +kernel,by simp⟩

theorem removalLoses :
    ¬Meets (ngxHttpMakeGetDcAmdtResponse (filled bigVfBufMax []) (adMiddle.text ++ [0]) adMiddle.text.length) adMiddle.Cleared ∧
    ngxHttpMakeGetDcAmdtResponse (filled bigVfBufMax []) (adLast.text ++ [0]) adLast.text.length = .error .null ∧
    ngxHttpMakeGetDcAmdtResponse (filled bigVfBufMax []) (adNone.text ++ [0]) adNone.text.length = .ok (filled bigVfBufMax [],none) := by
  refine ⟨?_,?_,?_⟩
  · have clean : (0 : Byte) ∉ adMiddle.text := adMiddle.clean
    have marked : search videosOther adMiddle.text ≠ none := by decide
    have first : search extinf adMiddle.text = some 8 := by decide
    have second : search extinf (behind videosOther adMiddle.text) = some 5 := by decide +kernel
    have shorter : (adMiddle.text.take 8 ++ (behind videosOther adMiddle.text).drop 5).length ≠ adMiddle.wanted.length := by
      decide +kernel
    rw [responseText clean (by decide +kernel),if_neg marked,first,second]
    intro answer
    simp only [meetsOk,Playlist.Cleared] at answer
    have lengths := Option.some.inj (congrArg (fun answer => answer.2) answer)
    exact shorter (Int.ofNat.inj lengths)
  · have clean : (0 : Byte) ∉ adLast.text := adLast.clean
    exact responseLost clean (by decide +kernel) (by decide +kernel) (by decide +kernel)
  · have clean : (0 : Byte) ∉ adNone.text := adNone.clean
    have none_ : search videosOther adNone.text = none := by decide +kernel
    rw [responseText clean (by decide),if_pos none_]

end MipsElfExec.Adv

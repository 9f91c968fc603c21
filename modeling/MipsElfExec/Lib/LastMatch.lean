import MipsElfExec.Lib.CString

/-! The last match of a pattern in a text that is made of pieces. A pattern whose first byte does not come again has no two
matches that overlap, so a search that goes on behind each match finds the last one. -/
namespace MipsElfExec.CString

def behind (pat : Bytes) : Bytes → Bytes
  | [] => []
  | b :: s =>
    if (search pat s).isSome then behind pat s
    else if pat.isPrefixOf (b :: s) then s.drop (pat.length - 1)
    else b :: s

def Apart (c : Byte) (front rest : Bytes) : Prop := front.getLast? = some c ∨ front = [] ∨ rest = []

section matches_
variable {pat pat' front rest s : Bytes} {b c : Byte} {k : Nat}

theorem searchApart (some_ : pat ≠ []) (clean : c ∉ pat.dropLast) (apart : Apart c front rest) :
    search pat (front ++ rest) = (search pat front).or ((search pat rest).map (· + front.length)) := by
  cases found : search pat front with
  | some k => rw [searchExtends found,Option.some_or]
  | none =>
    rw [Option.none_or]
    rcases apart with broken | rfl | rfl
    · exact searchBeyond broken clean found rest
    · simp
    · have empty : search pat [] = none := by simp [search,some_]
      rw [List.append_nil,found,empty]
      rfl

theorem searchSome (found : (search pat s).isSome = true) (front rest : Bytes) :
    (search pat (front ++ (s ++ rest))).isSome = true := by
  cases whole : search pat (front ++ (s ++ rest)) with
  | some k => rfl
  | none =>
    rw [searchFront rest (searchSuffix front whole)] at found
    cases found

theorem searchEarlier {j : Nat} (first : search pat (front ++ s) = some j) (found : search pat s = some k) :
    j ≤ front.length + k := by
  induction front generalizing j with
  | nil =>
    rw [List.nil_append,found] at first
    cases Option.some.inj first
    omega
  | cons b front ih =>
    rw [List.cons_append,search] at first
    split at first
    · cases Option.some.inj first
      omega
    · obtain ⟨m,later,rfl⟩ := Option.map_eq_some_iff.mp first
      have early := ih later
      rw [List.length_cons]
      omega

theorem searchSkip (clean : b ∉ front) (s : Bytes) :
    search (b :: pat') (front ++ s) = (search (b :: pat') s).map (· + front.length) := by
  induction front with
  | nil => simp
  | cons d front ih =>
    have other : b ≠ d := fun same => clean (same ▸ List.mem_cons_self)
    have here : ¬(b :: pat').isPrefixOf (d :: (front ++ s)) = true := by simp [List.isPrefixOf,other]
    rw [List.cons_append,search,if_neg here,ih fun mem => clean (List.mem_cons_of_mem _ mem),Option.map_map]
    rfl

theorem behindNone (missing : search pat s = none) : behind pat s = s := by
  cases s with
  | nil => rfl
  | cons b s =>
    rw [search] at missing
    split at missing
    · cases missing
    · rename_i elsewhere
      rw [behind,Option.map_eq_none_iff.mp missing,if_neg (by simp),if_neg elsewhere]

theorem behindSuffix (pat s : Bytes) : behind pat s <:+ s := by
  induction s with
  | nil => exact List.suffix_rfl
  | cons b s ih =>
    rw [behind]
    split
    · exact ih.trans (List.suffix_cons b s)
    · split
      · exact (List.drop_suffix _ _).trans (List.suffix_cons b s)
      · exact List.suffix_rfl

theorem behindMarked (found : (search pat rest).isSome = true) (front : Bytes) : behind pat (front ++ rest) = behind pat rest := by
  induction front with
  | nil => rfl
  | cons b front ih =>
    have later := searchSome found front []
    rw [List.append_nil] at later
    rw [List.cons_append,behind,if_pos later,ih]

theorem apartTail (apart : Apart c (b :: front) rest) : Apart c front rest := by
  rcases apart with broken | none_ | none_
  · cases front with
    | nil => exact .inr (.inl rfl)
    | cons d front => exact .inl (by simpa using broken)
  · cases none_
  · exact .inr (.inr none_)

theorem apartSuffix (apart : Apart c front rest) (suffix : s <:+ front) : Apart c s rest := by
  induction front with
  | nil =>
    rw [List.suffix_nil.mp suffix]
    exact apart
  | cons b front ih =>
    rcases List.suffix_cons_iff.mp suffix with rfl | later
    · exact apart
    · exact ih (apartTail apart) later

theorem behindApart (some_ : pat ≠ []) (clean : c ∉ pat.dropLast) (apart : Apart c front rest) (missing : search pat rest = none) :
    behind pat (front ++ rest) = behind pat front ++ rest := by
  induction front with
  | nil => exact behindNone missing
  | cons b front ih =>
    have whole := searchApart some_ clean apart
    have later := searchApart some_ clean (apartTail apart)
    rw [missing,Option.map_none,Option.or_none] at whole later
    rw [List.cons_append] at whole ⊢
    rw [behind,behind,later]
    split
    · exact ih (apartTail apart)
    · rename_i none_
      have fewer : search pat front = none := Option.not_isSome_iff_eq_none.mp none_
      rw [search,search,later,fewer] at whole
      by_cases here : pat.isPrefixOf (b :: front) = true
      · have wider : pat.isPrefixOf (b :: (front ++ rest)) = true := by
          by_contra narrow
          rw [if_neg narrow,if_pos here] at whole
          cases whole
        have size := (List.isPrefixOf_iff_prefix.mp here).length_le
        rw [List.length_cons] at size
        rw [if_pos wider,if_pos here,List.drop_append_of_le_length (by omega)]
      · have narrow : ¬pat.isPrefixOf (b :: (front ++ rest)) = true := by
          intro wider
          rw [if_pos wider,if_neg here] at whole
          cases whole
        rw [if_neg narrow,if_neg here,List.cons_append]

theorem behindFirst (clean : b ∉ pat') (found : search (b :: pat') s = some k) :
    behind (b :: pat') s = behind (b :: pat') (s.drop (k + (b :: pat').length)) := by
  induction s generalizing k with
  | nil => simp [search] at found
  | cons d s ih =>
    rw [search] at found
    split at found
    · rename_i here
      cases Option.some.inj found
      obtain ⟨rest,same⟩ := List.isPrefixOf_iff_prefix.mp here
      rw [List.cons_append] at same
      obtain ⟨rfl,rfl⟩ := List.cons.inj same
      have skip : search (b :: pat') (pat' ++ rest) = _ := searchSkip clean rest
      rw [behind,skip,Option.isSome_map,if_pos here,Nat.zero_add,List.length_cons,Nat.add_sub_cancel,List.drop_succ_cons,
        List.drop_left]
      split
      · rename_i more
        exact behindMarked more pat'
      · rename_i none_
        exact (behindNone (Option.not_isSome_iff_eq_none.mp none_)).symm
    · rename_i elsewhere
      obtain ⟨m,later,rfl⟩ := Option.map_eq_some_iff.mp found
      rw [behind,if_pos (by rw [later]; rfl),ih later,Nat.add_right_comm,List.drop_succ_cons]

end matches_

def Joined (c : Byte) : List Bytes → Prop
  | [] => True
  | piece :: pieces => Apart c piece pieces.flatten ∧ Joined c pieces

section pieces_
variable {pat piece : Bytes} {pieces before rest : List Bytes} {c : Byte}

theorem joinedDrop (joined : Joined c (before ++ rest)) : Joined c rest := by
  induction before with
  | nil => exact joined
  | cons piece before ih => exact ih joined.2

theorem searchPieces (some_ : pat ≠ []) (clean : c ∉ pat.dropLast) (joined : Joined c pieces) :
    search pat pieces.flatten = none ↔ ∀ piece ∈ pieces,search pat piece = none := by
  induction pieces with
  | nil => simp [search,some_]
  | cons piece pieces ih =>
    rw [List.flatten_cons,searchApart some_ clean joined.1,Option.or_eq_none_iff,Option.map_eq_none_iff,ih joined.2,
      List.forall_mem_cons]

theorem behindPieces (before : List Bytes) (some_ : pat ≠ []) (clean : c ∉ pat.dropLast) (joined : Joined c (before ++ piece :: rest))
    (marked : (search pat piece).isSome = true) (last : ∀ other ∈ rest,search pat other = none) :
    behind pat (before ++ piece :: rest).flatten = behind pat piece ++ rest.flatten := by
  have here := joinedDrop joined
  have found : (search pat (piece ++ rest.flatten)).isSome = true := searchSome marked [] rest.flatten
  rw [List.flatten_append,List.flatten_cons,behindMarked found]
  exact behindApart some_ clean here.1 ((searchPieces some_ clean here.2).mpr last)

end pieces_

end MipsElfExec.CString

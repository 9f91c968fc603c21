import Mathlib.Data.List.Basic
import Mathlib.Data.List.Infix
import Mathlib.Data.List.TakeWhile
import Mathlib.Tactic.Cases

/-! Byte strings as C code sees them: a search stops at the first NUL, a scan
stops at the first byte it does not want. A position is an offset into the list. -/
namespace MipsElfExec.CString

abbrev Byte := UInt8
abbrev Bytes := List Byte

def ascii (text : String) : Bytes := text.toList.map (fun c => UInt8.ofNat c.toNat)

def cstr : Bytes → Bytes
  | [] => []
  | b :: bs => if b = 0 then [] else b :: cstr bs

def search (pat : Bytes) : Bytes → Option Nat
  | [] => if pat = [] then some 0 else none
  | b :: bs => if pat.isPrefixOf (b :: bs) then some 0 else (search pat bs).map (· + 1)

def strstr (s pat : Bytes) : Option Nat := search pat (cstr s)

def strchr (s : Bytes) (c : Byte) : Option Nat := (cstr s).findIdx? (· == c)

def isdigit (b : Byte) : Bool := 48 ≤ b && b ≤ 57

def tolower (b : Byte) : Byte := if 65 ≤ b && b ≤ 90 then b + 32 else b

def crlf : Bytes := [13,10]

theorem untilClean (c : Byte) (s : Bytes) : c ∉ s.takeWhile (· ≠ c) := fun mem => by
  have other := List.mem_takeWhile_imp mem
  simp at other

theorem untilAll {c : Byte} {s : Bytes} (clean : c ∉ s) : ∀ b ∈ s,decide (b ≠ c) = true := fun b mem => by
  simpa using fun same : b = c => clean (same ▸ mem)

theorem untilStop (c : Byte) (s : Bytes) : s.dropWhile (· ≠ c) = [] ∨ ∃ rest,s.dropWhile (· ≠ c) = c :: rest := by
  cases stop : s.dropWhile (fun b : Byte => decide (b ≠ c)) with
  | nil => exact .inl rfl
  | cons b rest =>
    have some_ : s.dropWhile (fun b : Byte => decide (b ≠ c)) ≠ [] := by rw [stop]; exact List.cons_ne_nil _ _
    have first := List.head_dropWhile_not (fun b : Byte => decide (b ≠ c)) some_
    simp only [stop,List.head_cons,decide_eq_false_iff_not,not_not] at first
    exact .inr ⟨rest,by rw [first]⟩

theorem cstrNoNul (s : Bytes) : (0 : Byte) ∉ cstr s := by
  induction s with
  | nil => simp [cstr]
  | cons b s ih =>
    by_cases zero : b = 0
    · simp [cstr,zero]
    · simp [cstr,zero,ih,Ne.symm zero]

theorem cstrTerminated (s t : Bytes) (clean : (0 : Byte) ∉ s) : cstr (s ++ 0 :: t) = s := by
  induction s with
  | nil => simp [cstr]
  | cons b s ih =>
    have head : b ≠ 0 := fun zero => clean (by simp [zero])
    simp [cstr,head,ih (fun mem => clean (by simp [mem]))]

theorem cstrAppendNul (s t : Bytes) : cstr (s ++ 0 :: t) = cstr s := by
  induction s with
  | nil => simp [cstr]
  | cons b s ih => simp [cstr,ih]

theorem cstrOfNoNul {s : Bytes} (clean : (0 : Byte) ∉ s) : cstr s = s := by
  rw [← cstrAppendNul s [],cstrTerminated s [] clean]

theorem cstrAppend (s t : Bytes) : cstr (s ++ t) = if (0 : Byte) ∈ s then cstr s else s ++ cstr t := by
  induction s with
  | nil => simp
  | cons b s ih =>
    by_cases zero : b = 0
    · simp [cstr,zero]
    · by_cases inside : (0 : Byte) ∈ s <;> simp [cstr,zero,ih,inside,Ne.symm zero]

theorem cstrZeros (s : Bytes) (n : Nat) : cstr (s ++ List.replicate n 0) = cstr s := by
  cases n with
  | zero => rw [List.replicate_zero,List.append_nil]
  | succ n => rw [List.replicate_succ,cstrAppendNul]

theorem cstrStops {s : Bytes} (nul : (0 : Byte) ∈ s) : ∃ rest,s = cstr s ++ 0 :: rest := by
  obtain ⟨front,rest,rfl,clean⟩ := List.eq_append_cons_of_mem nul
  exact ⟨rest,by rw [cstrTerminated front rest clean]⟩

theorem cstrPrefix (s : Bytes) : cstr s <+: s := by
  induction s with
  | nil => simp [cstr]
  | cons b s ih =>
    by_cases zero : b = 0
    · simp [cstr,zero]
    · simpa [cstr,zero] using ih

theorem cstrAppendPrefix (s t : Bytes) : cstr s <+: cstr (s ++ t) := by
  rw [cstrAppend]
  split
  · exact List.prefix_rfl
  · rename_i clean
    rw [cstrOfNoNul clean]
    exact List.prefix_append _ _

theorem searchFound {pat s : Bytes} {n} (h : search pat s = some n) :
    s = s.take n ++ pat ++ s.drop (n + pat.length) := by
  induction s generalizing n with
  | nil =>
    simp only [search] at h
    split at h <;> try contradiction
    rename_i empty
    simp [empty]
  | cons b bs ih =>
    simp only [search] at h
    split at h
    · rename_i here
      cases Option.some.inj h
      obtain ⟨rest,same⟩ := List.isPrefixOf_iff_prefix.mp here
      simp [← same]
    · obtain ⟨m,hm,last⟩ := Option.map_eq_some_iff.mp h
      subst last
      have tail := ih hm
      rw [Nat.add_right_comm,List.take_succ_cons,List.drop_succ_cons]
      simpa using tail

theorem searchBound {pat s : Bytes} {n} (h : search pat s = some n) : n + pat.length ≤ s.length := by
  induction s generalizing n with
  | nil =>
    simp only [search] at h
    split at h <;> try contradiction
    rename_i empty
    cases Option.some.inj h
    simp [empty]
  | cons b bs ih =>
    simp only [search] at h
    split at h
    · rename_i here
      cases Option.some.inj h
      simpa using (List.isPrefixOf_iff_prefix.mp here).length_le
    · obtain ⟨m,hm,last⟩ := Option.map_eq_some_iff.mp h
      have small := ih hm
      simp only [List.length_cons]
      omega

theorem searchTake {pat s : Bytes} {n} (h : search pat s = some n) :
    s.take (n + pat.length) = s.take n ++ pat := by
  have bound := searchBound h
  have found := congrArg (List.take (n + pat.length)) (searchFound h)
  have size : (s.take n ++ pat).length = n + pat.length := by
    rw [List.length_append,List.length_take_of_le (by omega)]
  rw [← size,List.take_left,size] at found
  exact found

theorem searchExtends {pat s : Bytes} {n} (h : search pat s = some n) (t : Bytes) :
    search pat (s ++ t) = some n := by
  induction s generalizing n with
  | nil =>
    simp only [search] at h
    split at h <;> try contradiction
    rename_i empty
    cases Option.some.inj h
    cases t <;> simp [search,empty]
  | cons b bs ih =>
    simp only [search] at h
    split at h
    · rename_i here
      cases Option.some.inj h
      have wider : pat.isPrefixOf (b :: bs ++ t) :=
        List.isPrefixOf_iff_prefix.mpr ((List.isPrefixOf_iff_prefix.mp here).trans (List.prefix_append _ _))
      simp only [List.cons_append] at wider ⊢
      simp [search,wider]
    · rename_i later
      obtain ⟨m,hm,last⟩ := Option.map_eq_some_iff.mp h
      have short := searchBound hm
      have still : ¬ pat.isPrefixOf (b :: (bs ++ t)) = true := by
        intro wider
        refine later (List.isPrefixOf_iff_prefix.mpr ?_)
        have both := List.isPrefixOf_iff_prefix.mp wider
        exact List.prefix_of_prefix_length_le both (List.prefix_append (b :: bs) t)
          (by simp only [List.length_cons]; omega)
      simp [search,still,ih hm,last]

theorem searchSelf (pat s : Bytes) : search pat (pat ++ s) = some 0 := by
  cases pat with
  | nil => cases s <;> simp [search]
  | cons b pat => simp [search,List.isPrefixOf_iff_prefix]

theorem searchSuffix {pat : Bytes} (front : Bytes) {s : Bytes} (missing : search pat (front ++ s) = none) :
    search pat s = none := by
  induction front with
  | nil => exact missing
  | cons b front ih =>
    rw [List.cons_append,search] at missing
    split at missing
    · cases missing
    · exact ih (Option.map_eq_none_iff.mp missing)

theorem searchFront {pat s : Bytes} (t : Bytes) (missing : search pat (s ++ t) = none) : search pat s = none := by
  cases found : search pat s with
  | none => rfl
  | some k => cases missing.symm.trans (searchExtends found t)

theorem searchBeyond {pat s : Bytes} {c : Byte} (broken : s.getLast? = some c) (clean : c ∉ pat.dropLast)
    (missing : search pat s = none) (t : Bytes) : search pat (s ++ t) = (search pat t).map (· + s.length) := by
  induction s with
  | nil => cases broken
  | cons b bs ih =>
    simp only [search] at missing
    split at missing <;> try contradiction
    rename_i elsewhere
    have still : ¬pat.isPrefixOf (b :: (bs ++ t)) = true := by
      intro wider
      have both := List.isPrefixOf_iff_prefix.mp wider
      have whole : b :: bs <+: b :: (bs ++ t) := List.prefix_append (b :: bs) t
      rcases Nat.lt_or_ge (b :: bs).length pat.length with long | short
      · obtain ⟨rest,same⟩ := List.prefix_of_prefix_length_le whole both long.le
        have more : rest ≠ [] := fun none_ => by simp [none_] at same; simp [← same] at long
        refine clean ?_
        rw [← same,List.dropLast_append_of_ne_nil more]
        exact List.mem_append_left _ (List.mem_of_getLast? broken)
      · exact elsewhere (List.isPrefixOf_iff_prefix.mpr (List.prefix_of_prefix_length_le both whole short))
    have later : search pat (bs ++ t) = (search pat t).map (· + bs.length) := by
      cases bs with
      | nil => simp
      | cons d ds => exact ih (by simpa using broken) (by simpa using missing)
    simp only [List.cons_append,search,if_neg still,later,Option.map_map]
    congr 1

theorem prefixBeyond {pat s : Bytes} {c : Byte} (broken : s.getLast? = some c) (clean : c ∉ pat) (t : Bytes) :
    pat.isPrefixOf (s ++ t) = pat.isPrefixOf s := by
  rw [Bool.eq_iff_iff,List.isPrefixOf_iff_prefix,List.isPrefixOf_iff_prefix]
  constructor
  · intro wider
    rcases Nat.lt_or_ge pat.length s.length with short | long
    · exact List.prefix_of_prefix_length_le wider (List.prefix_append s t) short.le
    · have inside := List.prefix_of_prefix_length_le (List.prefix_append s t) wider long
      exact (clean (inside.subset (List.mem_of_getLast? broken))).elim
  · exact fun narrow => narrow.trans (List.prefix_append s t)

theorem prefixCut {pat : Bytes} {c : Byte} (clean : c ∉ pat) (s t : Bytes) :
    pat.isPrefixOf (s ++ c :: t) = pat.isPrefixOf s := by
  induction pat generalizing s with
  | nil => simp
  | cons d pat ih =>
    have tail : c ∉ pat := fun mem => clean (List.mem_cons_of_mem _ mem)
    cases s with
    | nil =>
      have other : d ≠ c := fun same => clean (by simp [same])
      simp [List.isPrefixOf,other]
    | cons b s => simp [List.isPrefixOf,ih tail s]

theorem searchSplit {pat : Bytes} {c : Byte} (some_ : pat ≠ []) (clean : c ∉ pat) (s t : Bytes) :
    search pat (s ++ c :: t) = (search pat s).or ((search pat t).map (· + (s.length + 1))) := by
  induction s with
  | nil =>
    have here : ¬pat.isPrefixOf (c :: t) = true := by
      have cut := prefixCut clean [] t
      rw [List.nil_append] at cut
      rw [cut]
      cases pat <;> simp_all
    simp [search,here,some_]
  | cons b s ih =>
    have cut := prefixCut clean (b :: s) t
    simp only [List.cons_append] at cut
    simp only [List.cons_append,search,cut,ih]
    split
    · rfl
    · cases search pat s <;> cases search pat t <;> simp [Nat.add_assoc]

theorem strstrBeyond {pat s : Bytes} {c : Byte} (text : (0 : Byte) ∉ s) (broken : s.getLast? = some c)
    (clean : c ∉ pat.dropLast) (missing : strstr s pat = none) (t : Bytes) :
    strstr (s ++ t) pat = (strstr t pat).map (· + s.length) := by
  unfold strstr at missing ⊢
  rw [cstrOfNoNul text] at missing
  rw [cstrAppend,if_neg text]
  exact searchBeyond broken clean missing (cstr t)

theorem strchrAppend {s : Bytes} (text : (0 : Byte) ∉ s) (c : Byte) (t : Bytes) :
    strchr (s ++ t) c = (strchr s c).or ((strchr t c).map (· + s.length)) := by
  unfold strchr
  rw [cstrAppend,if_neg text,cstrOfNoNul text,List.findIdx?_append]

end MipsElfExec.CString

import MipsElfExec.Avllib.Insert

/-! The searches of avlLib. What each finds is told by the list of the nodes; it ends within as many turns as the
tree is high, and one. -/
namespace MipsElfExec.Avllib
open Access Avl

variable {ρ δ κ : Type} {compare : δ → κ → Int} {m : Memory ρ δ} {t l s : Avl.Tree (Addr × δ)} {x : Addr × δ} {h : Nat}
  {key : κ} {turns : Nat}

theorem balancedSides (balanced : (Avl.Tree.node l x h s).Balanced) (enough : h < turns + 1) :
    l.Balanced ∧ s.Balanced ∧ l.height < turns ∧ s.height < turns := by
  obtain ⟨left,right,height,-,-⟩ := balanced
  exact ⟨left,right,by omega,by omega⟩

theorem cutSides {α : Type} {side : α → Ordering} {l s : Avl.Tree α} {x : α} {h : Nat} (cut : Cut side (Avl.Tree.node l x h s).toList) :
    Cut side l.toList ∧ Cut side s.toList := by
  obtain ⟨left,right,-⟩ := List.pairwise_append.mp cut
  exact ⟨left,(List.pairwise_cons.mp right).2⟩

theorem towardLt : toward compare key x = .lt ↔ compare x.2 key < 0 := by
  unfold toward
  split
  · rename_i same
    simp [same]
  · split
    · rename_i less
      simp [less]
    · rename_i less
      simp [less]

theorem towardGt : toward compare key x = .gt ↔ 0 < compare x.2 key := by
  unfold toward
  split
  · rename_i same
    simp [same]
  · split
    · rename_i less
      simp only [reduceCtorEq,false_iff]
      omega
    · simp only [true_iff]
      omega

theorem searchTree (holds : Holds m t) (balanced : t.Balanced) (cut : Cut (toward compare key) t.toList)
    (enough : t.height < turns) :
    avlSearch compare m key turns (ptr t) = .ok ((found (toward compare key) t.toList).map Prod.fst) := by
  induction t generalizing turns with
  | nil =>
    cases turns with
    | zero => cases enough
    | succ turns => rfl
  | node l x h s ihl ihr =>
    cases turns with
    | zero => cases enough
    | succ turns =>
      obtain ⟨here,first,second⟩ := holds
      obtain ⟨left,right,low,high⟩ := balancedSides balanced enough
      obtain ⟨cutLeft,cutRight⟩ := cutSides cut
      rw [ptrNode,avlSearch,Avl.Tree.toList,foundNode cut,toward]
      simp only [okBind,loadOk here]
      by_cases same : compare x.2 key = 0
      · rw [if_pos same,if_pos same]
        rfl
      · rw [if_neg same,if_neg same]
        by_cases less : compare x.2 key < 0
        · rw [if_pos less,if_pos less]
          exact ihl first left cutLeft low
        · rw [if_neg less,if_neg less]
          exact ihr second right cutRight high

theorem successorTree (holds : Holds m t) (balanced : t.Balanced) (cut : Cut (toward compare key) t.toList)
    (enough : t.height < turns) (superior : Option Addr) : avlSuccessorGet compare m key turns superior (ptr t) =
      .ok (((after (toward compare key) t.toList).head?.map Prod.fst).or superior) := by
  induction t generalizing turns superior with
  | nil =>
    cases turns with
    | zero => cases enough
    | succ turns => rfl
  | node l x h s ihl ihr =>
    cases turns with
    | zero => cases enough
    | succ turns =>
      obtain ⟨here,first,second⟩ := holds
      obtain ⟨left,right,low,high⟩ := balancedSides balanced enough
      obtain ⟨cutLeft,cutRight⟩ := cutSides cut
      rw [ptrNode,avlSuccessorGet,Avl.Tree.toList,afterNode cut]
      simp only [okBind,loadOk here,towardLt]
      by_cases less : compare x.2 key < 0
      · rw [if_pos less,if_pos less,ihl first left cutLeft low]
        cases (after (toward compare key) l.toList).head? <;> rfl
      · rw [if_neg less,if_neg less,ihr second right cutRight high]

theorem predecessorTree (holds : Holds m t) (balanced : t.Balanced) (cut : Cut (toward compare key) t.toList)
    (enough : t.height < turns) (inferior : Option Addr) : avlPredecessorGet compare m key turns inferior (ptr t) =
      .ok (((before (toward compare key) t.toList).getLast?.map Prod.fst).or inferior) := by
  induction t generalizing turns inferior with
  | nil =>
    cases turns with
    | zero => cases enough
    | succ turns => rfl
  | node l x h s ihl ihr =>
    cases turns with
    | zero => cases enough
    | succ turns =>
      obtain ⟨here,first,second⟩ := holds
      obtain ⟨left,right,low,high⟩ := balancedSides balanced enough
      obtain ⟨cutLeft,cutRight⟩ := cutSides cut
      rw [ptrNode,avlPredecessorGet,Avl.Tree.toList,beforeNode cut]
      simp only [okBind,loadOk here,towardGt]
      by_cases more : 0 < compare x.2 key
      · rw [if_pos more,if_pos more,ihr second right cutRight high]
        cases (before (toward compare key) s.toList).getLast? <;> rfl
      · rw [if_neg more,if_neg more,ihl first left cutLeft low]

theorem nodeList (l : Avl.Tree (Addr × δ)) (x : Addr × δ) (h : Nat) (s : Avl.Tree (Addr × δ)) : (Avl.Tree.node l x h s).toList ≠ [] := by
  simp [Avl.Tree.toList]

theorem minimumTree (holds : Holds m (.node l x h s)) (balanced : (Avl.Tree.node l x h s).Balanced) (enough : h ≤ turns) :
    some <$> minimumFrom m turns x.1 = .ok ((Avl.Tree.node l x h s).toList.head?.map Prod.fst) := by
  have height := balanced.2.2.1
  obtain ⟨turns,rfl⟩ : ∃ n,turns = n + 1 := ⟨turns - 1,by omega⟩
  induction l generalizing x h s turns with
  | nil =>
    rw [minimumFrom]
    simp only [okBind,loadOk holds.1]
    rfl
  | node ll y yh lr ihl _ =>
    obtain ⟨here,first,-⟩ := holds
    obtain ⟨left,-,low,-⟩ := balancedSides balanced (Nat.lt_succ_of_le enough)
    have lower := left.2.2.1
    rw [heightNode] at low
    obtain ⟨turns,rfl⟩ : ∃ n,turns = n + 1 := ⟨turns - 1,by omega⟩
    rw [minimumFrom]
    simp only [okBind,loadOk here,ptrNode]
    rw [ihl first left lower turns (by omega),show (Avl.Tree.node (.node ll y yh lr) x h s).toList =
      (Avl.Tree.node ll y yh lr).toList ++ x :: s.toList from rfl,List.head?_append]
    cases top : (Avl.Tree.node ll y yh lr).toList.head? with
    | none => exact absurd (List.head?_eq_none_iff.mp top) (nodeList ll y yh lr)
    | some z => rfl

theorem maximumTree (holds : Holds m (.node l x h s)) (balanced : (Avl.Tree.node l x h s).Balanced) (enough : h ≤ turns) :
    some <$> maximumFrom m turns x.1 = .ok ((Avl.Tree.node l x h s).toList.getLast?.map Prod.fst) := by
  have height := balanced.2.2.1
  obtain ⟨turns,rfl⟩ : ∃ n,turns = n + 1 := ⟨turns - 1,by omega⟩
  induction s generalizing x h l turns with
  | nil =>
    rw [maximumFrom,Avl.Tree.toList,List.getLast?_append]
    simp only [okBind,loadOk holds.1]
    rfl
  | node rl y yh rr _ ihr =>
    obtain ⟨here,-,second⟩ := holds
    obtain ⟨-,right,-,low⟩ := balancedSides balanced (Nat.lt_succ_of_le enough)
    have lower := right.2.2.1
    rw [heightNode] at low
    obtain ⟨turns,rfl⟩ : ∃ n,turns = n + 1 := ⟨turns - 1,by omega⟩
    rw [maximumFrom]
    simp only [okBind,loadOk here,ptrNode]
    rw [ihr second right lower turns (by omega),show (Avl.Tree.node l x h (.node rl y yh rr)).toList =
      l.toList ++ x :: (Avl.Tree.node rl y yh rr).toList from rfl,List.getLast?_append,List.getLast?_cons]
    cases top : (Avl.Tree.node rl y yh rr).toList.getLast? with
    | none => exact absurd (List.getLast?_eq_none_iff.mp top) (nodeList rl y yh rr)
    | some z => rfl

end MipsElfExec.Avllib

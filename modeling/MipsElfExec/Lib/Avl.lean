import Mathlib.Data.List.Find
import Mathlib.Data.List.Pairwise

/-! Height-balanced search trees. The comparison takes a node and a key; where it
says less, the search goes left. -/
namespace MipsElfExec.Avl

inductive Tree (α : Type) where
  | nil
  | node (left : Tree α) (value : α) (height : Nat) (right : Tree α)
  deriving DecidableEq, Repr

variable {α κ : Type}

def Tree.height : Tree α → Nat
  | .nil => 0
  | .node _ _ h _ => h

def Tree.toList : Tree α → List α
  | .nil => []
  | .node l x _ r => l.toList ++ x :: r.toList

def rebalanceLeft (left : Tree α) (x : α) (h : Nat) (right : Tree α) : Tree α :=
  match left with
  | .nil => .node left x h right
  | .node ll y yh lr =>
    if ll.height ≠ 0 ∧ lr.height ≤ ll.height then .node ll y (lr.height + 2) (.node lr x (lr.height + 1) right)
    else match lr with
      | .nil => .node (.node ll y yh lr) x h right
      | .node lrl z zh lrr => .node (.node ll y zh lrl) z (zh + 1) (.node lrr x zh right)

def rebalanceRight (left : Tree α) (x : α) (h : Nat) (right : Tree α) : Tree α :=
  match right with
  | .nil => .node left x h right
  | .node rl y yh rr =>
    if rr.height ≠ 0 ∧ rl.height ≤ rr.height then .node (.node left x (rl.height + 1) rl) y (rl.height + 2) rr
    else match rl with
      | .nil => .node left x h (.node rl y yh rr)
      | .node rll z zh rlr => .node (.node left x zh rll) z (zh + 1) (.node rlr y zh rr)

def avlRebalance (left : Tree α) (x : α) (h : Nat) (right : Tree α) : Tree α :=
  if right.height + 1 < left.height then rebalanceLeft left x h right
  else if left.height + 1 < right.height then rebalanceRight left x h right
  else .node left x (max left.height right.height + 1) right

def avlSearch (compare : α → κ → Ordering) : Tree α → κ → Option α
  | .nil,_ => none
  | .node l x _ r,key => match compare x key with
    | .eq => some x
    | .lt => avlSearch compare l key
    | .gt => avlSearch compare r key

def avlInsert (compare : α → κ → Ordering) (new : α) (key : κ) : Tree α → Tree α
  | .nil => .node .nil new 1 .nil
  | .node l x h r => match compare x key with
    | .eq => .node l x h r
    | .lt => avlRebalance (avlInsert compare new key l) x h r
    | .gt => avlRebalance l x h (avlInsert compare new key r)

theorem rebalanceList (left : Tree α) (x : α) (h : Nat) (right : Tree α) :
    (avlRebalance left x h right).toList = left.toList ++ x :: right.toList := by
  unfold avlRebalance rebalanceLeft rebalanceRight
  repeat' split
  all_goals simp [Tree.toList]

section ordered
variable {key : α → κ} {order : κ → κ → Ordering} {t : Tree α} {k : κ} {new : α}

theorem insertPerm (absent : ∀ x ∈ t.toList,order (key x) k ≠ .eq) :
    (avlInsert (fun x k => order (key x) k) new k t).toList.Perm (new :: t.toList) := by
  induction t with
  | nil => exact List.Perm.refl _
  | node l x h r ihl ihr =>
    have left (y : α) (mem : y ∈ l.toList) : order (key y) k ≠ .eq := absent y (List.mem_append_left _ mem)
    have right (y : α) (mem : y ∈ r.toList) : order (key y) k ≠ .eq :=
      absent y (List.mem_append_right _ (List.mem_cons_of_mem _ mem))
    have here : order (key x) k ≠ .eq := absent x (List.mem_append_right _ List.mem_cons_self)
    rw [avlInsert]
    cases side : order (key x) k with
    | eq => exact absurd side here
    | lt =>
      rw [rebalanceList]
      exact (ihl left).append_right _
    | gt =>
      rw [rebalanceList]
      exact (((ihr right).cons x).append_left l.toList).trans
        (((List.Perm.swap new x r.toList).append_left l.toList).trans List.perm_middle)

variable [Std.TransCmp order]

def Descending (key : α → κ) (order : κ → κ → Ordering) (l : List α) : Prop :=
  l.Pairwise fun x y => order (key x) (key y) = .gt

theorem searchFind (sorted : Descending key order t.toList) (k : κ) :
    avlSearch (fun x k => order (key x) k) t k = t.toList.find? fun x => order (key x) k == .eq := by
  induction t with
  | nil => rfl
  | node l x h r ihl ihr =>
    obtain ⟨left,right,across⟩ := List.pairwise_append.mp sorted
    obtain ⟨behind,rest⟩ := List.pairwise_cons.mp right
    have before (y : α) (mem : y ∈ l.toList) : order (key y) (key x) = .gt := across y mem x List.mem_cons_self
    rw [avlSearch,Tree.toList,List.find?_append]
    cases here : order (key x) k with
    | eq =>
      have none_ : l.toList.find? (fun x => order (key x) k == .eq) = none := by
        rw [List.find?_eq_none]
        intro y mem
        rw [Std.TransCmp.gt_of_gt_of_eq (before y mem) here]
        decide
      rw [none_,Option.none_or,List.find?_cons,here]
      rfl
    | lt =>
      have none_ : (x :: r.toList).find? (fun x => order (key x) k == .eq) = none := by
        rw [List.find?_eq_none]
        intro y mem
        rcases List.mem_cons.mp mem with rfl | inside
        · rw [here]
          decide
        · rw [Std.TransCmp.lt_trans (Std.OrientedCmp.gt_iff_lt.mp (behind y inside)) here]
          decide
      rw [none_,Option.or_none]
      exact ihl left
    | gt =>
      have none_ : l.toList.find? (fun x => order (key x) k == .eq) = none := by
        rw [List.find?_eq_none]
        intro y mem
        rw [Std.TransCmp.gt_trans (before y mem) here]
        decide
      rw [none_,Option.none_or,List.find?_cons,here]
      exact ihr rest

theorem insertSorted (sorted : Descending key order t.toList) (named : key new = k)
    (absent : ∀ x ∈ t.toList,order (key x) k ≠ .eq) :
    Descending key order (avlInsert (fun x k => order (key x) k) new k t).toList := by
  induction t with
  | nil => exact List.pairwise_singleton _ _
  | node l x h r ihl ihr =>
    obtain ⟨left,right,across⟩ := List.pairwise_append.mp sorted
    obtain ⟨behind,rest⟩ := List.pairwise_cons.mp right
    have leftAbsent (y : α) (mem : y ∈ l.toList) : order (key y) k ≠ .eq := absent y (List.mem_append_left _ mem)
    have rightAbsent (y : α) (mem : y ∈ r.toList) : order (key y) k ≠ .eq :=
      absent y (List.mem_append_right _ (List.mem_cons_of_mem _ mem))
    rw [avlInsert]
    cases side : order (key x) k with
    | eq => exact absurd side (absent x (List.mem_append_right _ List.mem_cons_self))
    | lt =>
      have first : order (key new) (key x) = .gt := by
        rw [named]
        exact Std.OrientedCmp.gt_iff_lt.mpr side
      rw [rebalanceList]
      refine List.pairwise_append.mpr ⟨ihl left leftAbsent,right,fun y inside z mem => ?_⟩
      rcases List.mem_cons.mp ((insertPerm leftAbsent).mem_iff.mp inside) with rfl | old
      · rcases List.mem_cons.mp mem with rfl | later
        · exact first
        · exact Std.TransCmp.gt_trans first (behind z later)
      · exact across y old z mem
    | gt =>
      have last : order (key x) (key new) = .gt := by
        rw [named]
        exact side
      rw [rebalanceList]
      refine List.pairwise_append.mpr ⟨left,List.pairwise_cons.mpr ⟨fun z inside => ?_,ihr rest rightAbsent⟩,
        fun y mem z inside => ?_⟩
      · rcases List.mem_cons.mp ((insertPerm rightAbsent).mem_iff.mp inside) with rfl | old
        · exact last
        · exact behind z old
      · rcases List.mem_cons.mp inside with rfl | later
        · exact across y mem z List.mem_cons_self
        · rcases List.mem_cons.mp ((insertPerm rightAbsent).mem_iff.mp later) with rfl | old
          · exact Std.TransCmp.gt_trans (across y mem x List.mem_cons_self) last
          · exact across y mem z (List.mem_cons_of_mem _ old)

theorem insertPresent (sorted : Descending key order t.toList) (there : ∃ x ∈ t.toList,order (key x) k = .eq) :
    (avlInsert (fun x k => order (key x) k) new k t).toList = t.toList := by
  induction t with
  | nil =>
    obtain ⟨x,mem,_⟩ := there
    cases mem
  | node l x h r ihl ihr =>
    obtain ⟨left,right,across⟩ := List.pairwise_append.mp sorted
    obtain ⟨behind,rest⟩ := List.pairwise_cons.mp right
    obtain ⟨y,mem,same⟩ := there
    rw [avlInsert]
    cases side : order (key x) k with
    | eq => rfl
    | lt =>
      have inside : y ∈ l.toList := by
        rcases List.mem_append.mp mem with inside | later
        · exact inside
        · rcases List.mem_cons.mp later with rfl | after
          · cases side.symm.trans same
          · cases side.symm.trans (Std.TransCmp.gt_of_gt_of_eq (behind y after) same)
      rw [rebalanceList,ihl left ⟨y,inside,same⟩]
      rfl
    | gt =>
      have inside : y ∈ r.toList := by
        rcases List.mem_append.mp mem with before | later
        · cases same.symm.trans (Std.TransCmp.gt_trans (across y before x List.mem_cons_self) side)
        · rcases List.mem_cons.mp later with rfl | after
          · cases side.symm.trans same
          · exact after
      rw [rebalanceList,ihr rest ⟨y,inside,same⟩]
      rfl

def insertAll (key : α → κ) (order : κ → κ → Ordering) (new : List α) (t : Tree α) : Tree α :=
  new.foldl (fun t x => avlInsert (fun x k => order (key x) k) x (key x) t) t

theorem insertFind (sorted : Descending key order t.toList) (new : α) (k : κ) :
    Descending key order (avlInsert (fun x k => order (key x) k) new (key new) t).toList ∧
    (avlInsert (fun x k => order (key x) k) new (key new) t).toList.find? (fun x => order (key x) k == .eq) =
      (t.toList ++ [new]).find? fun x => order (key x) k == .eq := by
  rcases Classical.em (∃ x ∈ t.toList,order (key x) (key new) = .eq) with there | absent
  · rw [insertPresent sorted there,List.find?_append]
    refine ⟨sorted,?_⟩
    obtain ⟨y,mem,same⟩ := there
    cases found : t.toList.find? fun x => order (key x) k == .eq with
    | some x => rfl
    | none =>
      have other : (order (key new) k == .eq) = false := by
        have apart : ¬(order (key y) k == .eq) = true := List.find?_eq_none.mp found y mem
        refine Bool.eq_false_iff.mpr fun equal => apart (beq_iff_eq.mpr ?_)
        exact Std.TransCmp.eq_trans same (beq_iff_eq.mp equal)
      rw [Option.none_or,List.find?_cons,other]
      rfl
  · have absent (x : α) (mem : x ∈ t.toList) : order (key x) (key new) ≠ .eq := fun same => absent ⟨x,mem,same⟩
    have perm := (@insertPerm _ _ _ _ _ _ new absent).trans (List.perm_append_singleton new t.toList).symm
    have grown := insertSorted sorted (rfl : key new = key new) absent
    refine ⟨grown,List.find?_eq_find?_of_perm perm fun x ⟨inX,first⟩ y ⟨inY,second⟩ => ?_⟩
    have : Std.Symm fun x y : α => order (key x) (key y) ≠ .eq :=
      ⟨fun _ _ apart same => apart (Std.OrientedCmp.eq_symm same)⟩
    have distinct := List.Pairwise.imp (S := fun x y => order (key x) (key y) ≠ .eq) (fun more same => by
      rw [same] at more
      cases more) grown
    by_contra apart
    refine distinct.forall inX inY apart ?_
    exact Std.TransCmp.eq_trans (beq_iff_eq.mp first) (Std.OrientedCmp.eq_symm (beq_iff_eq.mp second))

theorem builtFind (xs : List α) (k : κ) :
    avlSearch (fun x k => order (key x) k) (insertAll key order xs .nil) k = xs.find? fun x => order (key x) k == .eq := by
  have built (xs : List α) (t : Tree α) (sorted : Descending key order t.toList) :
      Descending key order (insertAll key order xs t).toList ∧
      (insertAll key order xs t).toList.find? (fun x => order (key x) k == .eq) =
        (t.toList ++ xs).find? fun x => order (key x) k == .eq := by
    induction xs generalizing t with
    | nil => exact ⟨sorted,by rw [List.append_nil]; rfl⟩
    | cons x xs ih =>
      obtain ⟨grown,found⟩ := insertFind sorted x k
      obtain ⟨ordered,all⟩ := ih _ grown
      refine ⟨ordered,all.trans ?_⟩
      rw [List.find?_append,found,← List.find?_append,List.append_assoc]
      rfl
  obtain ⟨sorted,same⟩ := built xs .nil List.Pairwise.nil
  rw [searchFind sorted]
  exact same

end ordered

end MipsElfExec.Avl

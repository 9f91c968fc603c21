import MipsElfExec.Avllib.Search

/-! Tables of nodes that are put into a tree when the program starts, and looked up from then on. Nothing is asked of
the comparison: what becomes of the nodes is what the recursive functions make of the elements. -/
namespace MipsElfExec.Avllib
open Access Avl

variable {ρ δ κ : Type} {compare : δ → κ → Int} {m : Memory ρ δ} {r : ρ} {t : Avl.Tree (Addr × δ)} {k : κ} {turns : Nat}

def sideBy (compare : δ → κ → Int) (d : δ) (k : κ) : Ordering :=
  if compare d k = 0 then .eq else if compare d k < 0 then .lt else .gt

variable (compare k) in
theorem searchRecursive (holds : Holds m t) (balanced : t.Balanced) (enough : t.height < turns) :
    avlSearch compare m k turns (ptr t) = .ok ((Avl.avlSearch (fun x k => sideBy compare x.2 k) t k).map Prod.fst) := by
  induction t generalizing turns with
  | nil =>
    cases turns with
    | zero => cases enough
    | succ turns => rfl
  | node l x h s ihl ihr =>
    cases turns with
    | zero => cases enough
    | succ turns =>
      obtain ⟨here,first,second⟩ := holds
      obtain ⟨left,right,low,high⟩ := balancedSides balanced enough
      rw [ptrNode,avlSearch,Avl.avlSearch,sideBy]
      simp only [okBind,loadOk here]
      by_cases same : compare x.2 k = 0
      · rw [if_pos same,if_pos same]
        rfl
      · rw [if_neg same,if_neg same]
        by_cases less : compare x.2 k < 0
        · rw [if_pos less,if_pos less]
          exact ihl first left low
        · rw [if_neg less,if_neg less]
          exact ihr second right high

theorem searchHeld {side : Addr × δ → κ → Ordering} {x : Addr × δ} (holds : Holds m t) (hit : Avl.avlSearch side t k = some x) :
    ∃ n,m.node x.1 = some n ∧ n.data = x.2 := by
  induction t with
  | nil => cases hit
  | node l y h s ihl ihr =>
    obtain ⟨here,first,second⟩ := holds
    rw [Avl.avlSearch] at hit
    cases way : side y k with
    | eq =>
      rw [way] at hit
      cases hit
      exact ⟨_,here,rfl⟩
    | lt =>
      rw [way] at hit
      exact ihl first hit
    | gt =>
      rw [way] at hit
      exact ihr second hit

section building
variable [DecidableEq ρ] {a : Addr} {n : AvlNode δ}

variable (compare k) in
theorem insertRecursive (rooted : Rooted m r t) (balanced : t.Balanced) (there : m.node a = some n) (out : a ∉ addrs t.toList) :
    ∃ m' status,avlInsert compare m (.root r) (some a) k = .ok (m',status) ∧
      Rooted m' r (Avl.avlInsert (fun x k => sideBy compare x.2 k) (a,n.data) k t) ∧ Elsewhere m m' r (a :: addrs t.toList) := by
  have inserts := insertTree compare k rooted balanced there out
  rw [← placeInsert balanced]
  cases placed : place (fun x => sideBy compare x.2 k) (a,n.data) t with
  | none =>
    rw [show place (toward compare k) (a,n.data) t = none from placed] at inserts
    exact ⟨m,.error,inserts,rooted,elsewhereRefl m r _⟩
  | some u =>
    rw [show place (toward compare k) (a,n.data) t = some u from placed] at inserts
    obtain ⟨m',inserts,fresh,same⟩ := inserts
    exact ⟨m',.ok,inserts,fresh,same⟩

def insertAll (compare : δ → κ → Int) (nodeKey : δ → κ) (r : ρ) (m : Memory ρ δ) : List Addr → Checked (Memory ρ δ)
  | [] => .ok m
  | a :: as => do
    let node ← m.load (some a)
    let (m,_) ← avlInsert compare m (.root r) (some a) (nodeKey node.data)
    insertAll compare nodeKey r m as

variable (compare) in
theorem insertAllTree (nodeKey : δ → κ) (xs : List (Addr × δ)) (rooted : Rooted m r t) (balanced : t.Balanced)
    (listed : ∀ x ∈ xs,∃ n,m.node x.1 = some n ∧ n.data = x.2) (distinct : (addrs xs ++ addrs t.toList).Nodup) :
    ∃ m' u,insertAll compare nodeKey r m (addrs xs) = .ok m' ∧ Rooted m' r u ∧ u.Balanced ∧
      u.map Prod.snd = (xs.map Prod.snd).foldl (fun t d => Avl.avlInsert (sideBy compare) d (nodeKey d) t) (t.map Prod.snd) := by
  induction xs generalizing m t with
  | nil => exact ⟨m,t,rfl,rooted,balanced,rfl⟩
  | cons x xs ih =>
    obtain ⟨n,there,data⟩ := listed x List.mem_cons_self
    obtain ⟨out,rest⟩ := List.nodup_cons.mp (show (x.1 :: (addrs xs ++ addrs t.toList)).Nodup from distinct)
    rw [List.mem_append,not_or] at out
    obtain ⟨m₁,status,inserts,fresh,same⟩ := insertRecursive compare (nodeKey n.data) rooted balanced there out.2
    have inside (b : Addr) (mem : b ∈ addrs (Avl.avlInsert (fun x k => sideBy compare x.2 k) (x.1,n.data) (nodeKey n.data) t).toList) :
        b = x.1 ∨ b ∈ addrs t.toList := by
      obtain ⟨y,inside,rfl⟩ := List.mem_map.mp mem
      rcases insertFrom inside with rfl | mem
      · exact .inl rfl
      · exact .inr (List.mem_map.mpr ⟨y,mem,rfl⟩)
    have apart (b : Addr) (mem : b ∈ addrs xs) : b ∉ x.1 :: addrs t.toList := by
      rw [List.mem_cons,not_or]
      exact ⟨fun equal => out.1 (equal ▸ mem),fun other => (List.nodup_append.mp rest).2.2 b mem b other rfl⟩
    obtain ⟨m₂,u,builds,last,even,nodes⟩ := ih fresh (insertBalanced balanced)
      (fun y mem => by
        obtain ⟨k,held,data⟩ := listed y (List.mem_cons_of_mem x mem)
        exact ⟨k,(same.node y.1 (apart y.1 (List.mem_map.mpr ⟨y,mem,rfl⟩))).trans held,data⟩)
      (List.nodup_append.mpr ⟨(List.nodup_append.mp rest).1,fresh.distinct,fun b mem c other equal => by
        subst equal
        exact apart b mem (List.mem_cons.mpr (inside b other))⟩)
    refine ⟨m₂,u,?_,last,even,?_⟩
    · rw [show addrs (x :: xs) = x.1 :: addrs xs from rfl,insertAll]
      simp only [okBind,loadOk there,inserts]
      exact builds
    · have whole := insertMap Prod.snd (sideBy compare) (x.1,n.data) (nodeKey n.data) t
      rw [nodes,whole,List.map_cons,List.foldl_cons,data]

variable (compare) in
theorem tableSearch (nodeKey : δ → κ) {base stride : Nat} {xs : List δ} (wide : nodeSize ≤ stride)
    (room : base + stride * xs.length ≤ addressSpace) (r : ρ) :
    ∃ m',insertAll compare nodeKey r (Memory.array ρ base stride xs wide room) (addrs (slots base stride xs)) = .ok m' ∧
      ∀ k,∃ p,avlSearch compare m' k avlMaxHeight (m'.root r) = .ok p ∧
        p.map (fun a => (m'.node a).map AvlNode.data) = (Avl.avlSearch (sideBy compare)
          (xs.foldl (fun t d => Avl.avlInsert (sideBy compare) d (nodeKey d) t) .nil) k).map some := by
  have empty : Rooted (Memory.array ρ base stride xs wide room) r .nil := ⟨rfl,trivial,.nil⟩
  obtain ⟨m',u,builds,last,even,nodes⟩ := insertAllTree compare nodeKey (slots base stride xs) empty trivial
    (fun x mem => ⟨_,arrayNode mem,rfl⟩) (by rw [show addrs (Avl.Tree.nil (α := Addr × δ)).toList = [] from rfl,List.append_nil]; exact slotsApart wide)
  rw [slotsData] at nodes
  refine ⟨m',builds,fun k => ?_⟩
  have low := rootedLow last even
  have searches := searchRecursive compare k last.holds even (show u.height < avlMaxHeight by unfold avlMaxHeight; omega)
  rw [← last.root] at searches
  refine ⟨_,searches,?_⟩
  have same : _ = (xs.foldl (fun t d => Avl.avlInsert (sideBy compare) d (nodeKey d) t) Avl.Tree.nil) := nodes
  rw [← same,searchMap]
  cases hit : Avl.avlSearch (fun x k => sideBy compare x.2 k) u k with
  | none => rfl
  | some x =>
    obtain ⟨n,held,data⟩ := searchHeld last.holds hit
    rw [Option.map_some,Option.map_some,Option.map_some,Option.map_some,held,Option.map_some,data]

end building

end MipsElfExec.Avllib

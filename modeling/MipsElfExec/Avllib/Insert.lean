import MipsElfExec.Avllib.Rebalance
import MipsElfExec.Lib.Place

/-! Insertion into the trees of avlLib. The nodes of a tree lie apart in an address space of 32 bits: a balanced
tree of them is too low for the array of the ancestors, which is never left. -/
namespace MipsElfExec.Avllib
open Access Avl

variable {ρ δ κ : Type} {compare : δ → κ → Int} {m : Memory ρ δ} {r : ρ} {fs : List (Frame (Addr × δ))}
  {t : Avl.Tree (Addr × δ)} {key : κ}

def toward (compare : δ → κ → Int) (key : κ) (x : Addr × δ) : Ordering :=
  if compare x.2 key = 0 then .eq else if compare x.2 key < 0 then .lt else .gt

section room
variable {xs : List Nat}

theorem nodesFew (distinct : xs.Nodup) (mapped : ∀ a ∈ xs,(m.node a).isSome) : nodeSize * xs.length ≤ addressSpace := by
  unfold nodeSize addressSpace
  have slots : (xs.map (· / 12)).Nodup := by
    refine List.Nodup.map_on (fun a inA b inB same => ?_) distinct
    by_contra apart
    rcases Nat.lt_or_gt_of_ne apart with less | less
    · have gap := m.apart a b (mapped a inA) (mapped b inB) less
      unfold nodeSize at gap
      omega
    · have gap := m.apart b a (mapped b inB) (mapped a inA) less
      unfold nodeSize at gap
      omega
  have inside : xs.map (· / 12) ⊆ List.range 357913941 := by
    intro slot mem
    obtain ⟨a,inA,rfl⟩ := List.mem_map.mp mem
    have below := m.below a (mapped a inA)
    unfold nodeSize addressSpace at below
    rw [List.mem_range]
    omega
  have few := (List.subperm_of_subset slots inside).length_le
  rw [List.length_map,List.length_range] at few
  omega

theorem holdsMapped (holds : Holds m t) : ∀ a ∈ addrs t.toList,(m.node a).isSome := by
  induction t with
  | nil =>
    intro a mem
    cases mem
  | node l x h s ihl ihr =>
    obtain ⟨here,left,right⟩ := holds
    intro a mem
    rcases memNode.mp mem with mem | rfl | mem
    · exact ihl left a mem
    · rw [here]
      rfl
    · exact ihr right a mem

/-- The comment on AVL_MAX_HEIGHT: the nodes of a higher tree would not fit into the address space. -/
theorem rootedLow (rooted : Rooted m r t) (balanced : t.Balanced) : t.height ≤ 40 := by
  have few := nodesFew rooted.distinct (holdsMapped rooted.holds)
  have many : Nat.fib 43 = 433494437 := by decide +kernel
  refine heightBelow balanced ?_
  rw [many]
  unfold nodeSize addressSpace addrs at few
  rw [List.length_map] at few
  omega

end room

variable (compare key) in
theorem descends (rooted : Rooted m r (plug fs t)) (balanced : t.Balanced) {room : Nat} (low : t.height ≤ room) :
    descend compare m key room (places r fs).reverse (hole r fs) = .ok (match zoom (toward compare key) t fs with
      | (gs,.nil) => .vacant (places r gs).reverse (hole r gs)
      | (gs,.node _ x _ _) => .found ((places r gs).reverse ++ [hole r gs]) (hole r gs) x.1) := by
  induction t generalizing fs room with
  | nil =>
    have place := getHole rooted
    rw [ptrNil] at place
    cases room with
    | zero =>
      rw [descend,place]
      rfl
    | succ room =>
      rw [descend,place]
      rfl
  | node l x h s ihl ihr =>
    obtain ⟨left,right,height,-,-⟩ := balanced
    obtain ⟨⟨here,-,-⟩,-⟩ := plugHolds.mp rooted.holds
    have place := getHole rooted
    rw [heightNode,height] at low
    cases room with
    | zero => cases low
    | succ room =>
      rw [descend,place,ptrNode,zoom]
      simp only [okBind,loadOk here,toward]
      by_cases same : compare x.2 key = 0
      · rw [if_pos same,if_pos same]
        rfl
      · rw [if_neg same,if_neg same]
        by_cases less : compare x.2 key < 0
        · rw [if_pos less,if_pos less]
          have down := ihl (show Rooted m r (plug (.left x h s :: fs) l) from rooted) left (show l.height ≤ room by omega)
          rw [places,List.reverse_cons] at down
          exact down
        · rw [if_neg less,if_neg less]
          have down := ihr (show Rooted m r (plug (.right l x h :: fs) s) from rooted) right (show s.height ≤ room by omega)
          rw [places,List.reverse_cons] at down
          exact down

theorem nodupExchange {xs ys : List Addr} {b : Addr} (a : Addr) (nodup : (xs ++ b :: ys).Nodup) (out : a ∉ xs ++ b :: ys) :
    (xs ++ a :: ys).Nodup ∧ b ∉ xs ++ a :: ys := by
  rw [List.nodup_middle,List.nodup_cons] at *
  simp only [List.mem_append,List.mem_cons,not_or] at *
  exact ⟨⟨⟨out.1,out.2.2⟩,nodup.2⟩,nodup.1.1,fun same => out.2.1 same.symm,nodup.1.2⟩

section insertion
variable [DecidableEq ρ] {a : Addr} {n : AvlNode δ}

theorem hangLeafOk {gs : List (Frame (Addr × δ))} (rooted : Rooted m r (plug gs .nil)) (there : m.node a = some n)
    (out : a ∉ addrs (span gs)) :
    ∃ m',hangLeaf m (some a) (hole r gs) = .ok m' ∧ Rooted m' r (plug gs (.node .nil (a,n.data) 1 .nil)) ∧
      Elsewhere m m' r (a :: addrs (span gs)) := by
  have frames := plugNodup.mp rooted.distinct
  obtain ⟨m',put,fresh,same⟩ := putHole (m.store a ⟨none,none,1,n.data⟩) (.node .nil (a,n.data) 1 .nil) rooted rfl
    (fun b mem => storeOther fun equal => out (equal ▸ mem)) ⟨storeSame there,trivial,trivial⟩ (List.nodup_cons.mpr ⟨out,frames⟩)
  refine ⟨m',?_,fresh,elsewhereTrans (elsewhereStore List.mem_cons_self) (elsewhereMono same fun _ mem => List.mem_cons_of_mem a mem)⟩
  rw [ptrNode] at put
  unfold hangLeaf
  simp only [okBind,setLeftOk there,setRightOk (storeSame there),storeStore,setHeightOk (storeSame there)]
  exact put

theorem leafClimbs {gs : List (Frame (Addr × δ))} (rooted : Rooted m r (plug gs .nil)) (fits : Fits gs 0)
    (there : m.node a = some n) (out : a ∉ addrs (span gs)) :
    ∃ m' m'',hangLeaf m (some a) (hole r gs) = .ok m' ∧
      avlRebalance m' (places r gs).reverse (places r gs).reverse.length = .ok m'' ∧
      Rooted m'' r (climb gs (.node .nil (a,n.data) 1 .nil)) ∧ Elsewhere m m'' r (a :: addrs (span gs)) := by
  obtain ⟨m',hangs,fresh,same⟩ := hangLeafOk rooted there out
  obtain ⟨m'',ends,last,rest⟩ := climbs fresh fits (by simp [Avl.Tree.Balanced]) (by simp [Near]) (List.prefix_refl _)
  rw [List.length_reverse,placesLength]
  refine ⟨m',m'',hangs,ends,last,elsewhereTrans same (elsewhereMono rest fun b mem => ?_)⟩
  rcases memPlug.mp mem with mem | mem
  · rw [show addrs (Avl.Tree.node .nil (a,n.data) 1 .nil).toList = [a] from rfl,List.mem_singleton] at mem
    exact mem ▸ List.mem_cons_self
  · exact List.mem_cons_of_mem a mem

theorem descendsVacant (rooted : Rooted m r t) (balanced : t.Balanced) (there : m.node a = some n) (out : a ∉ addrs t.toList)
    {gs : List (Frame (Addr × δ))} (ends : zoom (toward compare key) t [] = (gs,.nil)) :
    ∃ ancestor nodepp m' m'',descend compare m key avlMaxHeight [] (.root r) = .ok (.vacant ancestor nodepp) ∧
      hangLeaf m (some a) nodepp = .ok m' ∧ avlRebalance m' ancestor ancestor.length = .ok m'' ∧
      Rooted m'' r (climb gs (.node .nil (a,n.data) 1 .nil)) ∧ Elsewhere m m'' r (a :: addrs t.toList) := by
  have low := rootedLow rooted balanced
  have down := descends compare key (show Rooted m r (plug [] t) from rooted) balanced (show t.height ≤ avlMaxHeight by unfold avlMaxHeight; omega)
  have whole := zoomPlug (toward compare key) t []
  have fits := (zoomBalanced (toward compare key) [] balanced).2
  rw [ends] at down whole fits
  have whole : plug gs .nil = t := whole
  subst whole
  have sub (b : Addr) : b ∈ addrs (span gs) → b ∈ addrs (plug gs .nil).toList := fun mem => memPlug.mpr (.inr mem)
  obtain ⟨m',m'',hangs,ends,last,same⟩ := leafClimbs rooted fits there fun mem => out (sub a mem)
  refine ⟨_,_,m',m'',down,hangs,ends,last,elsewhereMono same fun b mem => ?_⟩
  rcases List.mem_cons.mp mem with rfl | mem
  · exact List.mem_cons_self
  · exact List.mem_cons_of_mem a (sub b mem)

omit [DecidableEq ρ] in
theorem descendsFound {gs : List (Frame (Addr × δ))} {l s : Avl.Tree (Addr × δ)} {x : Addr × δ} {h : Nat} (rooted : Rooted m r t)
    (balanced : t.Balanced) (ends : zoom (toward compare key) t [] = (gs,.node l x h s)) :
    descend compare m key avlMaxHeight [] (.root r) = .ok (.found ((places r gs).reverse ++ [hole r gs]) (hole r gs) x.1) ∧
      plug gs (.node l x h s) = t := by
  have low := rootedLow rooted balanced
  have down := descends compare key (show Rooted m r (plug [] t) from rooted) balanced (show t.height ≤ avlMaxHeight by unfold avlMaxHeight; omega)
  have whole := zoomPlug (toward compare key) t []
  rw [ends] at down whole
  exact ⟨down,whole⟩

variable (compare key) in
theorem insertTree (rooted : Rooted m r t) (balanced : t.Balanced) (there : m.node a = some n) (out : a ∉ addrs t.toList) :
    match place (toward compare key) (a,n.data) t with
    | none => avlInsert compare m (.root r) (some a) key = .ok (m,.error)
    | some u => ∃ m',avlInsert compare m (.root r) (some a) key = .ok (m',.ok) ∧ Rooted m' r u ∧
        Elsewhere m m' r (a :: addrs t.toList) := by
  unfold place
  cases ends : zoom (toward compare key) t [] with
  | mk gs focus =>
    cases focus with
    | nil =>
      obtain ⟨ancestor,nodepp,m',m'',down,hangs,climbed,last,same⟩ := descendsVacant rooted balanced there out ends
      refine ⟨m'',?_,last,same⟩
      simp only [avlInsert,down,okBind,hangs,climbed]
      rfl
    | node l x h s =>
      simp only [avlInsert,(descendsFound rooted balanced ends).1,okBind]
      rfl

variable (compare key) in
theorem informTree (rooted : Rooted m r t) (balanced : t.Balanced) (there : m.node a = some n) (out : a ∉ addrs t.toList)
    (held : Option Addr) : match exchange (toward compare key) (a,n.data) t with
    | some (x,_) => avlInsertInform compare m (.root r) (some a) key (some held) = .ok (m,.error,some (some x.1))
    | none => ∃ u m',place (toward compare key) (a,n.data) t = some u ∧
        avlInsertInform compare m (.root r) (some a) key (some held) = .ok (m',.ok,some (some a)) ∧ Rooted m' r u ∧
        Elsewhere m m' r (a :: addrs t.toList) := by
  unfold exchange place
  cases ends : zoom (toward compare key) t [] with
  | mk gs focus =>
    cases focus with
    | nil =>
      obtain ⟨ancestor,nodepp,m',m'',down,hangs,climbed,last,same⟩ := descendsVacant rooted balanced there out ends
      refine ⟨_,m'',rfl,?_,last,same⟩
      simp only [avlInsertInform,down,okBind,hangs,climbed]
      rfl
    | node l x h s =>
      simp only [avlInsertInform,(descendsFound rooted balanced ends).1,okBind]
      rfl

theorem exchangeNode {gs : List (Frame (Addr × δ))} {l s : Avl.Tree (Addr × δ)} {x : Addr × δ} {h : Nat}
    (rooted : Rooted m r (plug gs (.node l x h s))) (there : m.node a = some n)
    (out : a ∉ addrs (plug gs (.node l x h s)).toList) :
    ∃ m',(m.store a ⟨ptr l,ptr s,h,n.data⟩).put (hole r gs) (some a) = .ok m' ∧
      m'.node x.1 = some ⟨ptr l,ptr s,h,x.2⟩ ∧
      Rooted (m'.store x.1 ⟨none,none,1,x.2⟩) r (plug gs (.node l (a,n.data) h s)) ∧
      Elsewhere m (m'.store x.1 ⟨none,none,1,x.2⟩) r (a :: addrs (plug gs (.node l x h s)).toList) := by
  obtain ⟨⟨here,first,second⟩,-⟩ := plugHolds.mp rooted.holds
  have distinct := plugNodup.mp rooted.distinct
  rw [memPlug,not_or,memNode,not_or,not_or] at out
  obtain ⟨⟨outFirst,other,outSecond⟩,outFrames⟩ := out
  have listed : addrs (Avl.Tree.node l x h s).toList ++ addrs (span gs) =
      addrs l.toList ++ x.1 :: (addrs s.toList ++ addrs (span gs)) := by
    simp [Avl.Tree.toList]
  rw [listed] at distinct
  obtain ⟨fresh,gone⟩ := nodupExchange a distinct (by
    simp only [List.mem_append,List.mem_cons,not_or]
    exact ⟨outFirst,other,outSecond,outFrames⟩)
  obtain ⟨m',put,stands,same⟩ := putHole (m.store a ⟨ptr l,ptr s,h,n.data⟩) (.node l (a,n.data) h s) rooted rfl
    (fun b mem => storeOther fun equal => outFrames (equal ▸ mem))
    ⟨storeSame there,holdsStore first outFirst,holdsStore second outSecond⟩ (by simpa [Avl.Tree.toList] using fresh)
  simp only [List.mem_append,List.mem_cons,not_or] at gone
  obtain ⟨goneFirst,apart,goneSecond,goneFrames⟩ := gone
  have old : m'.node x.1 = some ⟨ptr l,ptr s,h,x.2⟩ := by
    rw [same.node x.1 goneFrames,storeOther apart,here]
  refine ⟨m',put,old,?_,elsewhereTrans (elsewhereStore List.mem_cons_self)
    (elsewhereTrans (elsewhereMono same fun b mem => List.mem_cons_of_mem a (memPlug.mpr (.inr mem)))
      (elsewhereStore (List.mem_cons_of_mem a (memPlug.mpr (.inl (memNode.mpr (.inr (.inl rfl))))))))⟩
  refine rootedCongr stands rfl fun b mem => storeOther fun equal => ?_
  rw [equal] at mem
  rcases memPlug.mp mem with mem | mem
  · rcases memNode.mp mem with mem | mem | mem
    · exact goneFirst mem
    · exact apart mem
    · exact goneSecond mem
  · exact goneFrames mem

variable (compare key) in
theorem removeInsertTree (rooted : Rooted m r t) (balanced : t.Balanced) (there : m.node a = some n) (out : a ∉ addrs t.toList) :
    match exchange (toward compare key) (a,n.data) t with
    | some (x,u) => ∃ m',avlRemoveInsert compare m (.root r) (some a) key = .ok (m',some x.1) ∧ Rooted m' r u ∧
        m'.node x.1 = some ⟨none,none,1,x.2⟩ ∧ Elsewhere m m' r (a :: addrs t.toList)
    | none => ∃ u m',place (toward compare key) (a,n.data) t = some u ∧
        avlRemoveInsert compare m (.root r) (some a) key = .ok (m',none) ∧ Rooted m' r u ∧ Elsewhere m m' r (a :: addrs t.toList) := by
  unfold exchange place
  cases ends : zoom (toward compare key) t [] with
  | mk gs focus =>
    cases focus with
    | nil =>
      obtain ⟨ancestor,nodepp,m',m'',down,hangs,climbed,last,same⟩ := descendsVacant rooted balanced there out ends
      refine ⟨_,m'',rfl,?_,last,same⟩
      simp only [avlRemoveInsert,down,okBind,hangs,climbed]
      rfl
    | node l x h s =>
      obtain ⟨down,rfl⟩ := descendsFound rooted balanced ends
      obtain ⟨m',put,old,stands,same⟩ := exchangeNode rooted there out
      obtain ⟨⟨here,-,-⟩,-⟩ := plugHolds.mp rooted.holds
      have other : x.1 ≠ a := fun equal => out (memPlug.mpr (.inl (memNode.mpr (.inr (.inl equal.symm)))))
      have again (k : AvlNode δ) : (m.store a k).node x.1 = some ⟨ptr l,ptr s,h,x.2⟩ := by
        rw [storeOther other,here]
      refine ⟨_,?_,stands,storeSame old,same⟩
      simp only [avlRemoveInsert,down,okBind,loadOk here,setLeftOk there,loadOk (again _),setRightOk (storeSame there),
        setHeightOk (storeSame there),storeStore,put,setLeftOk old,setRightOk (storeSame old),setHeightOk (storeSame old)]
      rfl

end insertion

end MipsElfExec.Avllib

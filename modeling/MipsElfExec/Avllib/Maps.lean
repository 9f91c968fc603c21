import MipsElfExec.Avllib.Runs

/-! Each tree of avlLib is a finite map from keys to nodes, and nothing else can be seen of it: what a run of calls
answers is told by the maps alone. -/
namespace MipsElfExec.Avllib
open Access Avl

variable {ρ δ κ : Type}

def Nearest (beyond : κ → Prop) (closer : κ → κ → Prop) (M : κ → Option Addr) : Option Addr → Prop
  | none => ∀ k,beyond k → M k = none
  | some a => ∃ k,beyond k ∧ M k = some a ∧ ∀ k',beyond k' → M k' ≠ none → ¬closer k' k

section maps
variable (order : κ → κ → Ordering) (M : ρ → κ → Option Addr)

def upd [DecidableEq ρ] (r : ρ) (k : κ) (v : Option Addr) : ρ → κ → Option Addr :=
  fun q k' => if q = r ∧ order k' k = .eq then v else M q k'

def mapAfter [DecidableEq ρ] : Call ρ δ κ → ρ → κ → Option Addr
  | .insert r a k => if M r k = none then upd order M r k (some a) else M
  | .insertInform r a k holder => if holder ≠ none ∧ M r k = none then upd order M r k (some a) else M
  | .removeInsert r a k => upd order M r k (some a)
  | .delete r k => upd order M r k none
  | .erase r => fun q k' => if q = r then none else M q k'
  | _ => M

def Tells : Call ρ δ κ → Answer → Prop
  | .fill _ _,answer => answer = .done
  | .erase _,answer => answer = .done
  | .insert r _ k,answer => answer = .status (if M r k = none then .ok else .error)
  | .insertInform r a k holder,answer => answer = match holder,M r k with
    | none,_ => .informed .error none
    | some _,none => .informed .ok (some (some a))
    | some _,some b => .informed .error (some (some b))
  | .removeInsert r _ k,answer => answer = .node (M r k)
  | .delete r k,answer => answer = .node (M r k)
  | .search r k,answer => answer = .node (M r k)
  | .successor r k,answer => ∃ p,answer = .node p ∧ Nearest (fun k' => order k k' = .lt) (fun k' k'' => order k' k'' = .lt) (M r) p
  | .predecessor r k,answer => ∃ p,answer = .node p ∧ Nearest (fun k' => order k k' = .gt) (fun k' k'' => order k' k'' = .gt) (M r) p
  | .minimum r,answer => ∃ p,answer = .node p ∧ Nearest (fun _ => True) (fun k' k'' => order k' k'' = .lt) (M r) p
  | .maximum r,answer => ∃ p,answer = .node p ∧ Nearest (fun _ => True) (fun k' k'' => order k' k'' = .gt) (M r) p

end maps

def History [DecidableEq ρ] (order : κ → κ → Ordering) : (ρ → κ → Option Addr) → List (Call ρ δ κ) → List Answer → Prop
  | _,[],answers => answers = []
  | _,_ :: _,[] => False
  | M,c :: cs,answer :: answers => Tells order M c answer ∧ History order (mapAfter order M c) cs answers

section agree
variable {key : δ → κ} {order : κ → κ → Ordering} {S S' : Shelf ρ δ}

def Shelf.map (key : δ → κ) (order : κ → κ → Ordering) (S : Shelf ρ δ) : ρ → κ → Option Addr :=
  fun r k => (S.lookup key order r k).map Prod.fst

theorem lookupMap {r : ρ} {k : κ} {p : Option (Addr × δ)} (found_ : S.lookup key order r k = p) :
    S.map key order r k = p.map Prod.fst := by rw [Shelf.map,found_]

variable [Std.TransCmp order]

theorem mapSome (sorted : Sorted key order S) {r : ρ} {x : Addr × δ} (mem : x ∈ S.tree r) {k : κ} (named : order k (key x.2) = .eq) :
    S.map key order r k = some x.1 := by
  have there : S.lookup key order r k = some x := (foundIff (sorted r)).mpr ⟨mem,named⟩
  rw [Shelf.map,there]
  rfl

theorem mapFound (sorted : Sorted key order S) {r : ρ} {k : κ} (there : S.map key order r k ≠ none) :
    ∃ x ∈ S.tree r,order k (key x.2) = .eq := by
  cases found_ : S.lookup key order r k with
  | none => exact absurd (by rw [Shelf.map,found_]; rfl) there
  | some x => exact ⟨x,(foundIff (sorted r)).mp found_⟩

theorem nearestFirst (beyond : κ → Prop) (p : Addr × δ → Bool) (sorted : Sorted key order S) (r : ρ)
    (same : ∀ x,p x = true ↔ beyond (key x.2)) (congr : ∀ {k k'},order k k' = .eq → (beyond k ↔ beyond k')) :
    Nearest beyond (fun k' k'' => order k' k'' = .lt) (S.map key order r) (((S.tree r).filter p).head?.map Prod.fst) := by
  cases top : ((S.tree r).filter p).head? with
  | none =>
    intro k outside
    by_contra there
    obtain ⟨x,mem,named⟩ := mapFound sorted there
    have kept : x ∈ (S.tree r).filter p := List.mem_filter.mpr ⟨mem,(same x).mpr ((congr named).mp outside)⟩
    rw [List.head?_eq_none_iff.mp top] at kept
    cases kept
  | some x =>
    obtain ⟨mem,holds,least⟩ := headLeast (sorted r) top
    refine ⟨key x.2,(same x).mp holds,mapSome sorted mem Std.ReflCmp.compare_self,fun k outside there closer => ?_⟩
    obtain ⟨y,inside,named⟩ := mapFound sorted there
    have less : order (key y.2) (key x.2) = .lt := Std.TransCmp.lt_of_eq_of_lt (Std.OrientedCmp.eq_symm named) closer
    rcases least y inside ((same y).mpr ((congr named).mp outside)) with rfl | more
    · have same : order (key y.2) (key y.2) = .eq := Std.ReflCmp.compare_self
      cases same.symm.trans less
    · have more : order (key x.2) (key y.2) = .lt := more
      rw [Std.OrientedCmp.gt_iff_lt.mpr more] at less
      cases less

theorem nearestLast (beyond : κ → Prop) (p : Addr × δ → Bool) (sorted : Sorted key order S) (r : ρ)
    (same : ∀ x,p x = true ↔ beyond (key x.2)) (congr : ∀ {k k'},order k k' = .eq → (beyond k ↔ beyond k')) :
    Nearest beyond (fun k' k'' => order k' k'' = .gt) (S.map key order r) (((S.tree r).filter p).getLast?.map Prod.fst) := by
  cases top : ((S.tree r).filter p).getLast? with
  | none =>
    intro k outside
    by_contra there
    obtain ⟨x,mem,named⟩ := mapFound sorted there
    have kept : x ∈ (S.tree r).filter p := List.mem_filter.mpr ⟨mem,(same x).mpr ((congr named).mp outside)⟩
    rw [List.getLast?_eq_none_iff.mp top] at kept
    cases kept
  | some x =>
    obtain ⟨mem,holds,greatest⟩ := lastGreatest (sorted r) top
    refine ⟨key x.2,(same x).mp holds,mapSome sorted mem Std.ReflCmp.compare_self,fun k outside there closer => ?_⟩
    obtain ⟨y,inside,named⟩ := mapFound sorted there
    have more : order (key x.2) (key y.2) = .lt :=
      Std.TransCmp.lt_of_lt_of_eq (Std.OrientedCmp.gt_iff_lt.mp closer) named
    rcases greatest y inside ((same y).mpr ((congr named).mp outside)) with rfl | less
    · have same : order (key y.2) (key y.2) = .eq := Std.ReflCmp.compare_self
      cases same.symm.trans more
    · have less : order (key y.2) (key x.2) = .lt := less
      rw [Std.OrientedCmp.gt_iff_lt.mpr more] at less
      cases less

theorem mapCongr (S : Shelf ρ δ) (r : ρ) {k k' : κ} (same : order k' k = .eq) : S.map key order r k' = S.map key order r k := by
  have sides : sideOf (keyOf key) order k' = sideOf (keyOf (δ := δ) key) order k := by
    funext x
    exact Std.TransCmp.congr_left same
  unfold Shelf.map Shelf.lookup
  rw [sides]

variable [DecidableEq ρ]

theorem putMap (sorted : Sorted key order S) {r : ρ} {k : κ} {x : Addr × δ} (named : order k (key x.2) = .eq) (loose : Addr → Option δ) :
    (S.putAt key order r k x loose).map key order = upd order (S.map key order) r k (some x.1) := by
  funext q k'
  unfold Shelf.map Shelf.lookup Shelf.putAt upd
  by_cases same : q = r
  · subst same
    rw [changeTree,putFound (sorted q) named]
    by_cases equal : order k' k = .eq
    · rw [if_pos equal,if_pos ⟨rfl,equal⟩]
      rfl
    · rw [if_neg equal,if_neg fun both => equal both.2]
  · rw [changeOther same,if_neg fun both => same both.1]

theorem dropMap (sorted : Sorted key order S) (r : ρ) (k : κ) (loose : Addr → Option δ) :
    (S.dropAt key order r k loose).map key order = upd order (S.map key order) r k none := by
  funext q k'
  unfold Shelf.map Shelf.lookup Shelf.dropAt upd
  by_cases same : q = r
  · subst same
    rw [changeTree,dropFound (sorted q)]
    by_cases equal : order k' k = .eq
    · rw [if_pos equal,if_pos ⟨rfl,equal⟩]
      rfl
    · rw [if_neg equal,if_neg fun both => equal both.2]
  · rw [changeOther same,if_neg fun both => same both.1]

theorem absentMap {r : ρ} {k : κ} (absent : S.map key order r k = none) : upd order (S.map key order) r k none = S.map key order := by
  funext q k'
  unfold upd
  split
  · rename_i both
    rw [both.1,mapCongr S r both.2,absent]
  · rfl

theorem callMap (sorted : Sorted key order S) {c : Call ρ δ κ} {answer : Answer} (step : S.call key order c = some (S',answer)) :
    Tells order (S.map key order) c answer ∧ S'.map key order = mapAfter order (S.map key order) c := by
  cases c with
  | fill a n =>
    obtain ⟨d,held,step⟩ := Option.map_eq_some_iff.mp step
    cases step
    exact ⟨rfl,rfl⟩
  | insert r a k =>
    obtain ⟨d,held,step⟩ := Option.map_eq_some_iff.mp step
    obtain ⟨-,named⟩ := ready held
    cases there : S.lookup key order r k with
    | some x =>
      rw [there] at step
      cases step
      simp [Tells,mapAfter,lookupMap there]
    | none =>
      rw [there] at step
      cases step
      have absent : S.map key order r k = none := lookupMap there
      refine ⟨(congrArg Answer.status (if_pos absent)).symm,(putMap sorted named _).trans ?_⟩
      exact (if_pos absent).symm
  | insertInform r a k holder =>
    cases holder with
    | none =>
      cases step
      exact ⟨rfl,rfl⟩
    | some holder =>
      obtain ⟨d,held,step⟩ := Option.map_eq_some_iff.mp step
      obtain ⟨-,named⟩ := ready held
      cases there : S.lookup key order r k with
      | some x =>
        rw [there] at step
        cases step
        simp [Tells,mapAfter,lookupMap there]
      | none =>
        rw [there] at step
        cases step
        have absent : S.map key order r k = none := lookupMap there
        refine ⟨by simp only [Tells,absent],(putMap sorted named _).trans ?_⟩
        exact (if_pos ⟨fun none_ => (by cases none_),absent⟩).symm
  | removeInsert r a k =>
    obtain ⟨d,held,step⟩ := Option.map_eq_some_iff.mp step
    obtain ⟨-,named⟩ := ready held
    cases there : S.lookup key order r k with
    | some x =>
      rw [there] at step
      cases step
      exact ⟨congrArg Answer.node (lookupMap there).symm,putMap sorted named _⟩
    | none =>
      rw [there] at step
      cases step
      exact ⟨congrArg Answer.node (lookupMap there).symm,putMap sorted named _⟩
  | delete r k =>
    rw [Shelf.call] at step
    cases there : S.lookup key order r k with
    | some x =>
      rw [there] at step
      cases step
      exact ⟨congrArg Answer.node (lookupMap there).symm,dropMap sorted r k _⟩
    | none =>
      rw [there] at step
      cases step
      exact ⟨congrArg Answer.node (lookupMap there).symm,(absentMap (lookupMap there)).symm⟩
  | search r k =>
    cases step
    exact ⟨rfl,rfl⟩
  | successor r k =>
    cases step
    refine ⟨⟨_,rfl,nearestFirst _ _ sorted r (fun x => beq_iff_eq) fun same => ?_⟩,rfl⟩
    rw [Std.TransCmp.congr_right same]
  | predecessor r k =>
    cases step
    refine ⟨⟨_,rfl,nearestLast _ _ sorted r (fun x => beq_iff_eq) fun same => ?_⟩,rfl⟩
    rw [Std.TransCmp.congr_right same]
  | minimum r =>
    cases step
    have nearest := nearestFirst (fun _ => True) (fun _ => true) sorted r (by simp) (by simp)
    rw [List.filter_true] at nearest
    exact ⟨⟨_,rfl,nearest⟩,rfl⟩
  | maximum r =>
    cases step
    have nearest := nearestLast (fun _ => True) (fun _ => true) sorted r (by simp) (by simp)
    rw [List.filter_true] at nearest
    exact ⟨⟨_,rfl,nearest⟩,rfl⟩
  | erase r =>
    cases step
    refine ⟨rfl,?_⟩
    funext q k'
    show _ = if q = r then none else S.map key order q k'
    unfold Shelf.map Shelf.lookup
    by_cases same : q = r
    · subst same
      rw [changeTree,if_pos rfl]
      rfl
    · rw [changeOther same,if_neg same]

theorem sortedRun (cs : List (Call ρ δ κ)) {answers : List Answer} (sorted : Sorted key order S)
    (legal : S.run key order cs = some (S',answers)) : Sorted key order S' := by
  induction cs generalizing S answers with
  | nil =>
    cases legal
    exact sorted
  | cons c cs ih =>
    rw [Shelf.run] at legal
    obtain ⟨⟨S₁,answer⟩,step,legal⟩ := Option.bind_eq_some_iff.mp legal
    obtain ⟨⟨S₂,rest⟩,later,legal⟩ := Option.bind_eq_some_iff.mp legal
    cases legal
    exact ih (sortedCall sorted step) later

theorem historyRun (cs : List (Call ρ δ κ)) {answers : List Answer} (sorted : Sorted key order S)
    (legal : S.run key order cs = some (S',answers)) : History order (S.map key order) cs answers := by
  induction cs generalizing S answers with
  | nil =>
    cases legal
    rfl
  | cons c cs ih =>
    rw [Shelf.run] at legal
    obtain ⟨⟨S₁,answer⟩,step,legal⟩ := Option.bind_eq_some_iff.mp legal
    obtain ⟨⟨S₂,rest⟩,later,legal⟩ := Option.bind_eq_some_iff.mp legal
    cases legal
    obtain ⟨tells,same⟩ := callMap sorted step
    refine ⟨tells,?_⟩
    rw [← same]
    exact ih (sortedCall sorted step) later

end agree

section unsigned
variable (unsignedKey : δ → UInt32)

theorem ranksUnsigned : Ranks (compareUnsigned unsignedKey) unsignedKey (compareOn UInt32.toNat) where
  equal d k := by
    unfold compareUnsigned compareOn
    rw [Nat.compare_eq_eq,UInt32.toNat_inj]
    split
    · simp_all
    · split <;> simp_all
  less d k := by
    unfold compareUnsigned compareOn
    rw [Nat.compare_eq_lt,← UInt32.lt_iff_toNat_lt]
    split
    · simp_all
    · split <;> simp_all

end unsigned

def Shelf.empty (ρ : Type) (loose : Addr → Option δ) (allocs : Int) : Shelf ρ δ := ⟨fun _ => [],loose,allocs⟩

theorem threeRoom : 0 + 12 * ([5,7,6] : List UInt32).length ≤ addressSpace := by decide

def threeNodes : Memory Unit UInt32 := Memory.array Unit 0 12 [5,7,6] threeWide threeRoom

def threeHeld : Addr → Option UInt32 := fun a => (threeNodes.node a).map AvlNode.data

theorem threeHeldNodes {a : Addr} {d : UInt32} (own : threeHeld a = some d) : ∃ n,threeNodes.node a = some n ∧ n.data = d :=
  Option.map_eq_some_iff.mp own

def threeCalls : List (Call Unit UInt32 UInt32) :=
  [.insert () 0 5,.insert () 12 7,.insert () 24 6,.delete () 5,.search () 7,.successor () 5,.insert () 0 5,.erase (),.minimum ()]

def threeAnswers : List Answer :=
  [.status .ok,.status .ok,.status .ok,.node (some 0),.node (some 12),.node (some 24),.status .ok,.done,.node none]

section empty
variable {compare : δ → κ → Int} {key : δ → κ} {order : κ → κ → Ordering} {m : Memory ρ δ} {loose : Addr → Option δ}

theorem emptyRepresents (vacant : ∀ r,m.root r = none) (held : ∀ {a d},loose a = some d → ∃ n,m.node a = some n ∧ n.data = d) :
    Represents m (Shelf.empty ρ loose m.allocs) :=
  ⟨fun r => ⟨.nil,⟨vacant r,trivial,List.nodup_nil⟩,trivial,rfl⟩,fun mem => (by cases mem),
    fun {a d} own => ⟨held own,fun _ mem => (by cases mem)⟩,rfl⟩

/-- Every run that the callers keep their side of ends, in memory that is as it should be, and what it answered is
what finite maps from keys to nodes answer. -/
theorem runsAreMaps [DecidableEq ρ] [Std.TransCmp order] (ranks : Ranks compare key order) (vacant : ∀ r,m.root r = none)
    (held : ∀ {a d},loose a = some d → ∃ n,m.node a = some n ∧ n.data = d) (cs : List (Call ρ δ κ)) {S : Shelf ρ δ}
    {answers : List Answer} (legal : (Shelf.empty ρ loose m.allocs).run key order cs = some (S,answers)) :
    ∃ m',run compare m cs = .ok (m',answers) ∧ Represents m' S ∧ History order (fun _ _ => none) cs answers := by
  have sorted : Sorted key order (Shelf.empty ρ loose m.allocs) := fun _ => .nil
  obtain ⟨m',runs,rep⟩ := runSteps ranks cs (emptyRepresents vacant held) sorted legal
  exact ⟨m',runs,rep,historyRun cs sorted legal⟩

theorem runsAreMaps_three : ∃ m' S,run (compareUnsigned id) threeNodes threeCalls = .ok (m',threeAnswers) ∧ Represents m' S ∧
    History (compareOn UInt32.toNat) (fun _ _ => none) threeCalls threeAnswers := by
  have vacant (r : Unit) : threeNodes.root r = none := rfl
  obtain ⟨m',runs,rep,history⟩ := runsAreMaps (ranksUnsigned id) vacant threeHeldNodes threeCalls
    (show (Shelf.empty Unit threeHeld 0).run id (compareOn UInt32.toNat) threeCalls = some (_,threeAnswers) from rfl)
  exact ⟨m',_,runs,rep,history⟩

/-- After every such run a search of n nodes is over within d turns, if n + 1 is less than the Fibonacci number of d + 2. -/
theorem searchesShort [DecidableEq ρ] [Std.TransCmp order] (ranks : Ranks compare key order) (vacant : ∀ r,m.root r = none)
    (held : ∀ {a d},loose a = some d → ∃ n,m.node a = some n ∧ n.data = d) (cs : List (Call ρ δ κ)) {S : Shelf ρ δ}
    {answers : List Answer} (legal : (Shelf.empty ρ loose m.allocs).run key order cs = some (S,answers)) :
    ∃ m',run compare m cs = .ok (m',answers) ∧ ∀ r turns k,(S.tree r).length + 1 < Nat.fib (turns + 2) →
      avlSearch compare m' k turns (m'.root r) = .ok (S.map key order r k) := by
  have sorted : Sorted key order (Shelf.empty ρ loose m.allocs) := fun _ => .nil
  obtain ⟨m',runs,rep⟩ := runSteps ranks cs (emptyRepresents vacant held) sorted legal
  refine ⟨m',runs,fun r turns k few => ?_⟩
  obtain ⟨t,rooted,balanced,list⟩ := rep.stands r
  have cut := cutAscending (sortedRun cs sorted legal r) k
  rw [← list,← towardSide ranks] at cut
  have low : t.height < turns := by
    have bound := heightBound balanced
    rw [list] at bound
    by_contra high
    have more := Nat.fib_mono (show turns + 2 ≤ t.height + 2 by omega)
    omega
  rw [rooted.root,searchTree rooted.holds balanced cut low,towardSide ranks,list]
  rfl

theorem searchesShort_three : ∃ m',run (compareUnsigned id) threeNodes (threeCalls.take 3) = .ok (m',threeAnswers.take 3) ∧
    avlSearch (compareUnsigned id) m' 7 3 (m'.root ()) = .ok (some 12) := by
  have vacant (r : Unit) : threeNodes.root r = none := rfl
  obtain ⟨m',runs,short⟩ := searchesShort (ranksUnsigned id) vacant threeHeldNodes (threeCalls.take 3)
    (show (Shelf.empty Unit threeHeld 0).run id (compareOn UInt32.toNat) (threeCalls.take 3) = some (_,threeAnswers.take 3) from rfl)
  exact ⟨m',runs,short () 3 7 (by decide)⟩

end empty

end MipsElfExec.Avllib

import MipsElfExec.Avllib.Shelf

/-! Runs of calls into avlLib, on any number of trees that share their nodes. A caller may fill in nodes that are in no
tree, and insert those under their own keys; every other call is open to it at any time. -/
namespace MipsElfExec.Avllib
open Access Avl

variable {ρ δ κ : Type}

inductive Call (ρ δ κ : Type) where
  | fill (a : Addr) (n : AvlNode δ)
  | insert (r : ρ) (newNode : Addr) (k : κ)
  | insertInform (r : ρ) (pNewNode : Addr) (k : κ) (ppKeyHolder : Option (Option Addr))
  | removeInsert (r : ρ) (pNewNode : Addr) (k : κ)
  | delete (r : ρ) (k : κ)
  | search (r : ρ) (k : κ)
  | successor (r : ρ) (k : κ)
  | predecessor (r : ρ) (k : κ)
  | minimum (r : ρ)
  | maximum (r : ρ)
  | erase (r : ρ)

inductive Answer where
  | done
  | status (s : Status)
  | informed (s : Status) (holder : Option (Option Addr))
  | node (p : Option Addr)
  deriving DecidableEq, Repr

section calls
variable [DecidableEq ρ]

def exec (compare : δ → κ → Int) (m : Memory ρ δ) : Call ρ δ κ → Checked (Memory ρ δ × Answer)
  | .fill a n => do
    let m ← m.change (some a) fun _ => n
    pure (m,.done)
  | .insert r newNode k => do
    let (m,status) ← avlInsert compare m (.root r) (some newNode) k
    pure (m,.status status)
  | .insertInform r pNewNode k ppKeyHolder => do
    let (m,status,holder) ← avlInsertInform compare m (.root r) (some pNewNode) k ppKeyHolder
    pure (m,.informed status holder)
  | .removeInsert r pNewNode k => do
    let (m,old) ← avlRemoveInsert compare m (.root r) (some pNewNode) k
    pure (m,.node old)
  | .delete r k => do
    let (m,old) ← avlDelete compare m (.root r) k
    pure (m,.node old)
  | .search r k => do
    let p ← avlSearch compare m k avlMaxHeight (m.root r)
    pure (m,.node p)
  | .successor r k => do
    let p ← avlSuccessorGet compare m k avlMaxHeight none (m.root r)
    pure (m,.node p)
  | .predecessor r k => do
    let p ← avlPredecessorGet compare m k avlMaxHeight none (m.root r)
    pure (m,.node p)
  | .minimum r => do
    let p ← avlMinimumGet m avlMaxHeight (m.root r)
    pure (m,.node p)
  | .maximum r => do
    let p ← avlMaximumGet m avlMaxHeight (m.root r)
    pure (m,.node p)
  | .erase r => do
    let m ← avlTreeErase avlMaxHeight m (some (.root r))
    pure (m,.done)

def run (compare : δ → κ → Int) : Memory ρ δ → List (Call ρ δ κ) → Checked (Memory ρ δ × List Answer)
  | m,[] => .ok (m,[])
  | m,c :: cs => do
    let (m,answer) ← exec compare m c
    let (m,answers) ← run compare m cs
    pure (m,answer :: answers)

end calls

section spec
variable [DecidableEq ρ] (key : δ → κ) (order : κ → κ → Ordering) (S : Shelf ρ δ)

def Shelf.hold (a : Addr) (d : Option δ) : Addr → Option δ := fun b => if b = a then d else S.loose b

def Shelf.lookup (r : ρ) (k : κ) : Option (Addr × δ) := found (sideOf (keyOf key) order k) (S.tree r)

def Shelf.putAt (r : ρ) (k : κ) (x : Addr × δ) (loose : Addr → Option δ) : Shelf ρ δ :=
  S.change r (before (sideOf (keyOf key) order k) (S.tree r) ++ x :: after (sideOf (keyOf key) order k) (S.tree r)) loose S.allocs

def Shelf.dropAt (r : ρ) (k : κ) (loose : Addr → Option δ) : Shelf ρ δ :=
  S.change r (before (sideOf (keyOf key) order k) (S.tree r) ++ after (sideOf (keyOf key) order k) (S.tree r)) loose S.allocs

def Shelf.ready (a : Addr) (k : κ) : Option δ := match S.loose a with
  | none => none
  | some d => if order k (key d) = .eq then some d else none

def Shelf.call : Call ρ δ κ → Option (Shelf ρ δ × Answer)
  | .fill a n => (S.loose a).map fun _ => ({ S with loose := S.hold a (some n.data) },.done)
  | .insert r a k => (S.ready key order a k).map fun d => match S.lookup key order r k with
    | some _ => (S,.status .error)
    | none => (S.putAt key order r k (a,d) (S.hold a none),.status .ok)
  | .insertInform r a k holder => match holder with
    | none => some (S,.informed .error none)
    | some _ => (S.ready key order a k).map fun d => match S.lookup key order r k with
      | some x => (S,.informed .error (some (some x.1)))
      | none => (S.putAt key order r k (a,d) (S.hold a none),.informed .ok (some (some a)))
  | .removeInsert r a k => (S.ready key order a k).map fun d => match S.lookup key order r k with
    | some x => (S.putAt key order r k (a,d) fun b => if b = x.1 then some x.2 else S.hold a none b,.node (some x.1))
    | none => (S.putAt key order r k (a,d) (S.hold a none),.node none)
  | .delete r k => some (match S.lookup key order r k with
    | some x => (S.dropAt key order r k (S.hold x.1 (some x.2)),.node (some x.1))
    | none => (S,.node none))
  | .search r k => some (S,.node ((S.lookup key order r k).map Prod.fst))
  | .successor r k => some (S,.node ((after (sideOf (keyOf key) order k) (S.tree r)).head?.map Prod.fst))
  | .predecessor r k => some (S,.node ((before (sideOf (keyOf key) order k) (S.tree r)).getLast?.map Prod.fst))
  | .minimum r => some (S,.node ((S.tree r).head?.map Prod.fst))
  | .maximum r => some (S,.node ((S.tree r).getLast?.map Prod.fst))
  | .erase r => some (S.change r [] S.loose (S.allocs - (2 * (S.tree r).length - 1 : Nat)),.done)

def Shelf.run : Shelf ρ δ → List (Call ρ δ κ) → Option (Shelf ρ δ × List Answer)
  | S,[] => some (S,[])
  | S,c :: cs => do
    let (S,answer) ← S.call key order c
    let (S,answers) ← S.run cs
    pure (S,answer :: answers)

end spec

def Met [DecidableEq ρ] (compare : δ → κ → Int) (m : Memory ρ δ) (c : Call ρ δ κ) (S' : Shelf ρ δ) (answer : Answer) : Prop :=
  ∃ m',exec compare m c = .ok (m',answer) ∧ Represents m' S'

section parts
variable {key : δ → κ} {order : κ → κ → Ordering} {S : Shelf ρ δ} {a : Addr} {d : δ} {k : κ} {r : ρ}

theorem ready (held : S.ready key order a k = some d) : S.loose a = some d ∧ order k (key d) = .eq := by
  unfold Shelf.ready at held
  cases loose : S.loose a with
  | none =>
    rw [loose] at held
    cases held
  | some e =>
    rw [loose] at held
    dsimp only at held
    split at held
    · rename_i named
      cases held
      exact ⟨rfl,named⟩
    · cases held

theorem sortedChange [DecidableEq ρ] {xs : List (Addr × δ)} {loose : Addr → Option δ} {n : Int} (sorted : Sorted key order S)
    (fresh : Ascending (keyOf key) order xs) : Sorted key order (S.change r xs loose n) := by
  intro q
  by_cases same : q = r
  · subst same
    rwa [changeTree]
  · rw [changeOther same]
    exact sorted q

theorem memParts {side : Addr × δ → Ordering} {xs : List (Addr × δ)} (b : Addr)
    (mem : b ∈ addrs (before side xs ++ after side xs)) : b ∈ addrs xs := by
  obtain ⟨x,inside,rfl⟩ := List.mem_map.mp mem
  refine List.mem_map.mpr ⟨x,?_,rfl⟩
  rcases List.mem_append.mp inside with inside | inside
  · exact (memBefore.mp inside).1
  · exact (memAfter.mp inside).1

theorem memPut {side : Addr × δ → Ordering} {xs : List (Addr × δ)} (b : Addr)
    (mem : b ∈ addrs (before side xs ++ (a,d) :: after side xs)) : b = a ∨ b ∈ addrs (before side xs ++ after side xs) := by
  rw [addrsAppend,addrsCons,List.mem_append,List.mem_cons] at mem
  rw [addrsAppend,List.mem_append]
  tauto

theorem foundApart {side : Addr × δ → Ordering} {xs : List (Addr × δ)} {x : Addr × δ} (distinct : (addrs xs).Nodup)
    (there : found side xs = some x) : x ∈ xs ∧ x.1 ∉ addrs (before side xs ++ after side xs) := by
  have mem : x ∈ xs := List.mem_of_find?_eq_some there
  have here : side x = .eq := beq_iff_eq.mp (List.find?_some (p := fun x => side x == .eq) there)
  refine ⟨mem,fun inside => ?_⟩
  obtain ⟨y,inside,same⟩ := List.mem_map.mp inside
  have old : y ∈ xs ∧ side y ≠ .eq := by
    rcases List.mem_append.mp inside with inside | inside
    · exact ⟨(memBefore.mp inside).1,by rw [(memBefore.mp inside).2]; decide⟩
    · exact ⟨(memAfter.mp inside).1,by rw [(memAfter.mp inside).2]; decide⟩
  exact old.2 (List.inj_on_of_nodup_map distinct old.1 mem same ▸ here)

end parts

section searches
variable {compare : δ → κ → Int} {key : δ → κ} {order : κ → κ → Ordering} {m : Memory ρ δ} {S : Shelf ρ δ}

theorem endsStep (rep : Represents m S) (r : ρ) :
    avlMinimumGet m avlMaxHeight (m.root r) = .ok ((S.tree r).head?.map Prod.fst) ∧
    avlMaximumGet m avlMaxHeight (m.root r) = .ok ((S.tree r).getLast?.map Prod.fst) := by
  obtain ⟨t,rooted,balanced,list⟩ := rep.stands r
  have low := rootedLow rooted balanced
  rw [rooted.root,← list]
  cases t with
  | nil => exact ⟨rfl,rfl⟩
  | node l x h s =>
    rw [heightNode] at low
    have enough : h ≤ avlMaxHeight := by unfold avlMaxHeight; omega
    exact ⟨minimumTree rooted.holds balanced enough,maximumTree rooted.holds balanced enough⟩

theorem searchStep [Std.TransCmp order] (ranks : Ranks compare key order) (rep : Represents m S) (sorted : Sorted key order S) (r : ρ) (k : κ) :
    avlSearch compare m k avlMaxHeight (m.root r) = .ok ((S.lookup key order r k).map Prod.fst) ∧
    avlSuccessorGet compare m k avlMaxHeight none (m.root r) =
      .ok ((after (sideOf (keyOf key) order k) (S.tree r)).head?.map Prod.fst) ∧
    avlPredecessorGet compare m k avlMaxHeight none (m.root r) =
      .ok ((before (sideOf (keyOf key) order k) (S.tree r)).getLast?.map Prod.fst) := by
  obtain ⟨t,rooted,balanced,list⟩ := rep.stands r
  have cut := cutAscending (sorted r) k
  have low := rootedLow rooted balanced
  have enough : t.height < avlMaxHeight := by unfold avlMaxHeight; omega
  rw [← list,← towardSide ranks] at cut
  have searches := searchTree rooted.holds balanced cut enough
  have successor := successorTree rooted.holds balanced cut enough none
  have predecessor := predecessorTree rooted.holds balanced cut enough none
  rw [Option.or_none] at successor predecessor
  unfold Shelf.lookup
  rw [rooted.root,searches,successor,predecessor,towardSide ranks,list]
  exact ⟨rfl,rfl,rfl⟩

end searches

section steps
variable [DecidableEq ρ] {compare : δ → κ → Int} {key : δ → κ} {order : κ → κ → Ordering}
  {m m' : Memory ρ δ} {S S' : Shelf ρ δ} {r : ρ} {a : Addr} {d : δ} {k : κ} {answer : Answer}

theorem putRepresents (rep : Represents m S) (held : S.loose a = some d)
    (stands : Stands m' r (before (sideOf (keyOf key) order k) (S.tree r) ++ (a,d) :: after (sideOf (keyOf key) order k) (S.tree r)))
    (same : Elsewhere m m' r (a :: addrs (S.tree r))) :
    Represents m' (S.putAt key order r k (a,d) (S.hold a none)) := by
  have mine (b : Addr) (mem : b ∈ a :: addrs (S.tree r)) : b ∈ addrs (S.tree r) ∨ S.loose b ≠ none := by
    rcases List.mem_cons.mp mem with rfl | mem
    · exact .inr (by rw [held]; simp)
    · exact .inl mem
  have listed (b : Addr) (mem : b ∈ addrs (before (sideOf (keyOf key) order k) (S.tree r) ++
      (a,d) :: after (sideOf (keyOf key) order k) (S.tree r))) : b ∈ a :: addrs (S.tree r) :=
    List.mem_cons.mpr ((memPut b mem).imp_right (memParts b))
  rw [Shelf.putAt,← rep.allocs,← same.allocs]
  refine changeRepresents _ rep stands same.root same.node mine listed fun {b e} still => ?_
  unfold Shelf.hold at still
  by_cases other : b = a
  · rw [if_pos other] at still
    cases still
  · rw [if_neg other] at still
    obtain ⟨there,out⟩ := rep.loose still
    have apart : b ∉ a :: addrs (S.tree r) := fun mem => (List.mem_cons.mp mem).elim other (out r)
    rw [same.node b apart]
    exact ⟨there,fun mem => apart (listed b mem),.inr (by rw [still]; simp)⟩

theorem exchangeRepresents {x : Addr × δ} {n : AvlNode δ} (rep : Represents m S) (held : S.loose a = some d)
    (there : S.lookup key order r k = some x) (left : m'.node x.1 = some n) (data : n.data = x.2)
    (stands : Stands m' r (before (sideOf (keyOf key) order k) (S.tree r) ++ (a,d) :: after (sideOf (keyOf key) order k) (S.tree r)))
    (same : Elsewhere m m' r (a :: addrs (S.tree r))) :
    Represents m' (S.putAt key order r k (a,d) fun b => if b = x.1 then some x.2 else S.hold a none b) := by
  have mine (b : Addr) (mem : b ∈ a :: addrs (S.tree r)) : b ∈ addrs (S.tree r) ∨ S.loose b ≠ none := by
    rcases List.mem_cons.mp mem with rfl | mem
    · exact .inr (by rw [held]; simp)
    · exact .inl mem
  have listed (b : Addr) (mem : b ∈ addrs (before (sideOf (keyOf key) order k) (S.tree r) ++
      (a,d) :: after (sideOf (keyOf key) order k) (S.tree r))) : b ∈ a :: addrs (S.tree r) :=
    List.mem_cons.mpr ((memPut b mem).imp_right (memParts b))
  obtain ⟨t,rooted,-,list⟩ := rep.stands r
  have distinct := rooted.distinct
  rw [list] at distinct
  obtain ⟨mem,gone⟩ := foundApart distinct there
  have inside : x.1 ∈ addrs (S.tree r) := List.mem_map.mpr ⟨x,mem,rfl⟩
  have other : x.1 ≠ a := fun equal => (rep.loose held).2 r (equal ▸ inside)
  rw [Shelf.putAt,← rep.allocs,← same.allocs]
  refine changeRepresents _ rep stands same.root same.node mine listed fun {b e} still => ?_
  by_cases here : b = x.1
  · rw [if_pos here] at still
    cases still
    subst here
    exact ⟨⟨n,left,data⟩,fun mem => (memPut x.1 mem).elim other gone,.inl inside⟩
  · rw [if_neg here] at still
    unfold Shelf.hold at still
    by_cases new : b = a
    · rw [if_pos new] at still
      cases still
    · rw [if_neg new] at still
      obtain ⟨there,out⟩ := rep.loose still
      have apart : b ∉ a :: addrs (S.tree r) := fun mem => (List.mem_cons.mp mem).elim new (out r)
      rw [same.node b apart]
      exact ⟨there,fun mem => apart (listed b mem),.inr (by rw [still]; simp)⟩

theorem dropRepresents {x : Addr × δ} {n : AvlNode δ} (rep : Represents m S) (there : S.lookup key order r k = some x)
    (left : m'.node x.1 = some n) (data : n.data = x.2)
    (stands : Stands m' r (before (sideOf (keyOf key) order k) (S.tree r) ++ after (sideOf (keyOf key) order k) (S.tree r)))
    (same : Elsewhere m m' r (addrs (S.tree r))) : Represents m' (S.dropAt key order r k (S.hold x.1 (some x.2))) := by
  obtain ⟨t,rooted,-,list⟩ := rep.stands r
  have distinct := rooted.distinct
  rw [list] at distinct
  obtain ⟨mem,gone⟩ := foundApart distinct there
  have inside : x.1 ∈ addrs (S.tree r) := List.mem_map.mpr ⟨x,mem,rfl⟩
  rw [Shelf.dropAt,← rep.allocs,← same.allocs]
  refine changeRepresents _ rep stands same.root same.node (fun _ mem => .inl mem) memParts fun {b e} still => ?_
  unfold Shelf.hold at still
  by_cases here : b = x.1
  · rw [if_pos here] at still
    cases still
    subst here
    exact ⟨⟨n,left,data⟩,gone,.inl inside⟩
  · rw [if_neg here] at still
    obtain ⟨there,out⟩ := rep.loose still
    rw [same.node b (out r)]
    exact ⟨there,fun mem => out r (memParts b mem),.inr (by rw [still]; simp)⟩

theorem eraseStep (rep : Represents m S) (r : ρ) : ∃ m',avlTreeErase avlMaxHeight m (some (.root r)) = .ok m' ∧
    Represents m' (S.change r [] S.loose (S.allocs - (2 * (S.tree r).length - 1 : Nat))) := by
  obtain ⟨t,rooted,balanced,list⟩ := rep.stands r
  have low := rootedLow rooted balanced
  obtain ⟨m',run,wiped⟩ := eraseTree (fun (out : Unit) _ => out) (show Rooted m r (plug [] t) from rooted)
    (show t.depth < avlMaxHeight by rw [balancedDepth balanced]; unfold avlMaxHeight; omega) ()
  have cost := wiped.allocs
  rw [rep.allocs,list] at cost
  refine ⟨m',?_,?_⟩
  · have run : avlTreePrintErase (fun (out : Unit) _ => out) avlMaxHeight () m (some (.root r)) = _ := run
    rw [avlTreeErase,run]
    rfl
  · rw [← cost]
    refine changeRepresents (addrs (S.tree r)) rep ⟨.nil,wiped.stands,trivial,rfl⟩ wiped.root (fun a out => ?_)
      (fun _ mem => .inl mem) (fun _ mem => by cases mem) fun {a d} held => ?_
    · rw [← list] at out
      exact wiped.node a out fun mem => by cases mem
    · obtain ⟨there,out⟩ := rep.loose held
      have same := wiped.node a (by rw [list]; exact out r) fun mem => by cases mem
      rw [same]
      exact ⟨there,fun mem => (by cases mem),.inr (by rw [held]; simp)⟩

theorem fillStep {n : AvlNode δ} (rep : Represents m S)
    (step : S.call key order (.fill a n) = some (S',answer)) : Met compare m (.fill a n) S' answer := by
  obtain ⟨d,held,step⟩ := Option.map_eq_some_iff.mp step
  cases step
  obtain ⟨⟨old,there,-⟩,out⟩ := rep.loose held
  refine ⟨m.store a n,by simp only [exec,Memory.change,there]; rfl,⟨fun r => ?_,rep.apart,fun {b e} still => ?_,rep.allocs⟩⟩
  · obtain ⟨t,rooted,balanced,list⟩ := rep.stands r
    refine ⟨t,rootedCongr rooted rfl fun b mem => storeOther fun same => out r ?_,balanced,list⟩
    rw [← same,← list]
    exact mem
  · dsimp only [Shelf.hold] at still
    by_cases same : b = a
    · rw [if_pos same] at still
      cases still
      subst same
      exact ⟨⟨n,storeSame there,rfl⟩,out⟩
    · rw [if_neg same] at still
      rw [storeOther same]
      exact rep.loose still

variable [Std.TransCmp order]

theorem sortedCall (sorted : Sorted key order S) {c : Call ρ δ κ} {answer : Answer}
    (step : S.call key order c = some (S',answer)) : Sorted key order S' := by
  cases c with
  | fill a n =>
    obtain ⟨d,held,step⟩ := Option.map_eq_some_iff.mp step
    cases step
    exact sorted
  | insert r a k =>
    obtain ⟨d,held,step⟩ := Option.map_eq_some_iff.mp step
    cases there : S.lookup key order r k with
    | some x =>
      rw [there] at step
      cases step
      exact sorted
    | none =>
      rw [there] at step
      cases step
      exact sortedChange sorted (putAscending (sorted r) (ready held).2)
  | insertInform r a k holder =>
    cases holder with
    | none =>
      cases step
      exact sorted
    | some holder =>
      obtain ⟨d,held,step⟩ := Option.map_eq_some_iff.mp step
      cases there : S.lookup key order r k with
      | some x =>
        rw [there] at step
        cases step
        exact sorted
      | none =>
        rw [there] at step
        cases step
        exact sortedChange sorted (putAscending (sorted r) (ready held).2)
  | removeInsert r a k =>
    obtain ⟨d,held,step⟩ := Option.map_eq_some_iff.mp step
    cases there : S.lookup key order r k with
    | some x =>
      rw [there] at step
      cases step
      exact sortedChange sorted (putAscending (sorted r) (ready held).2)
    | none =>
      rw [there] at step
      cases step
      exact sortedChange sorted (putAscending (sorted r) (ready held).2)
  | delete r k =>
    rw [Shelf.call] at step
    cases there : S.lookup key order r k with
    | some x =>
      rw [there] at step
      cases step
      exact sortedChange sorted (dropAscending (sorted r) k)
    | none =>
      rw [there] at step
      cases step
      exact sorted
  | search r k =>
    cases step
    exact sorted
  | successor r k =>
    cases step
    exact sorted
  | predecessor r k =>
    cases step
    exact sorted
  | minimum r =>
    cases step
    exact sorted
  | maximum r =>
    cases step
    exact sorted
  | erase r =>
    cases step
    exact sortedChange sorted .nil

theorem insertStep (ranks : Ranks compare key order) (rep : Represents m S) (sorted : Sorted key order S)
    (step : S.call key order (.insert r a k) = some (S',answer)) : Met compare m (.insert r a k) S' answer := by
  obtain ⟨d,held,step⟩ := Option.map_eq_some_iff.mp step
  obtain ⟨loose,-⟩ := ready held
  obtain ⟨⟨n,there,rfl⟩,out⟩ := rep.loose loose
  obtain ⟨t,rooted,balanced,list⟩ := rep.stands r
  have cut := cutAscending (sorted r) k
  have inserts := insertTree compare k rooted balanced there (by rw [list]; exact out r)
  rw [towardSide ranks] at inserts
  rw [← list] at cut
  cases placed : place (sideOf (keyOf key) order k) (a,n.data) t with
  | none =>
    obtain ⟨x,present⟩ := placeNone cut placed
    rw [placed] at inserts
    rw [list] at present
    rw [Shelf.lookup,present] at step
    cases step
    exact ⟨m,by simp only [exec,inserts,okBind]; rfl,rep⟩
  | some u =>
    obtain ⟨even,nodes,absent⟩ := placeSome cut balanced placed
    rw [placed] at inserts
    obtain ⟨m',inserts,fresh,same⟩ := inserts
    rw [list] at nodes absent same
    rw [Shelf.lookup,absent] at step
    cases step
    exact ⟨m',by simp only [exec,inserts,okBind]; rfl,putRepresents rep loose ⟨u,fresh,even,nodes⟩ same⟩

theorem informStep {holder : Option (Option Addr)} (ranks : Ranks compare key order) (rep : Represents m S)
    (sorted : Sorted key order S) (step : S.call key order (.insertInform r a k holder) = some (S',answer)) :
    Met compare m (.insertInform r a k holder) S' answer := by
  cases holder with
  | none =>
    cases step
    exact ⟨m,rfl,rep⟩
  | some holder =>
    obtain ⟨d,held,step⟩ := Option.map_eq_some_iff.mp step
    obtain ⟨loose,-⟩ := ready held
    obtain ⟨⟨n,there,rfl⟩,out⟩ := rep.loose loose
    obtain ⟨t,rooted,balanced,list⟩ := rep.stands r
    have cut := cutAscending (sorted r) k
    have inserts := informTree compare k rooted balanced there (by rw [list]; exact out r) holder
    rw [towardSide ranks] at inserts
    rw [← list] at cut
    cases exchanged : exchange (sideOf (keyOf key) order k) (a,n.data) t with
    | none =>
      rw [exchanged] at inserts
      obtain ⟨u,m',placed,inserts,fresh,same⟩ := inserts
      obtain ⟨even,nodes,absent⟩ := placeSome cut balanced placed
      rw [list] at nodes absent same
      rw [Shelf.lookup,absent] at step
      cases step
      exact ⟨m',by simp only [exec,inserts,okBind]; rfl,putRepresents rep loose ⟨u,fresh,even,nodes⟩ same⟩
    | some pair =>
      obtain ⟨x,u⟩ := pair
      obtain ⟨-,-,present⟩ := exchangeSome cut balanced exchanged
      rw [exchanged] at inserts
      rw [list] at present
      rw [Shelf.lookup,present] at step
      cases step
      exact ⟨m,by simp only [exec,inserts,okBind]; rfl,rep⟩

theorem removeInsertStep (ranks : Ranks compare key order) (rep : Represents m S) (sorted : Sorted key order S)
    (step : S.call key order (.removeInsert r a k) = some (S',answer)) : Met compare m (.removeInsert r a k) S' answer := by
  obtain ⟨d,held,step⟩ := Option.map_eq_some_iff.mp step
  obtain ⟨loose,-⟩ := ready held
  obtain ⟨⟨n,there,rfl⟩,out⟩ := rep.loose loose
  obtain ⟨t,rooted,balanced,list⟩ := rep.stands r
  have cut := cutAscending (sorted r) k
  have inserts := removeInsertTree compare k rooted balanced there (by rw [list]; exact out r)
  rw [towardSide ranks] at inserts
  rw [← list] at cut
  cases exchanged : exchange (sideOf (keyOf key) order k) (a,n.data) t with
  | none =>
    rw [exchanged] at inserts
    obtain ⟨u,m',placed,inserts,fresh,same⟩ := inserts
    obtain ⟨even,nodes,absent⟩ := placeSome cut balanced placed
    rw [list] at nodes absent same
    rw [Shelf.lookup,absent] at step
    cases step
    exact ⟨m',by simp only [exec,inserts,okBind]; rfl,putRepresents rep loose ⟨u,fresh,even,nodes⟩ same⟩
  | some pair =>
    obtain ⟨x,u⟩ := pair
    obtain ⟨even,nodes,present⟩ := exchangeSome cut balanced exchanged
    rw [exchanged] at inserts
    obtain ⟨m',inserts,fresh,sterile,same⟩ := inserts
    rw [list] at nodes present same
    have present : S.lookup key order r k = some x := present
    rw [present] at step
    cases step
    exact ⟨m',by simp only [exec,inserts,okBind]; rfl,
      exchangeRepresents rep loose present sterile rfl ⟨u,fresh,even,nodes⟩ same⟩

theorem deleteStep (ranks : Ranks compare key order) (rep : Represents m S) (sorted : Sorted key order S)
    (step : S.call key order (.delete r k) = some (S',answer)) : Met compare m (.delete r k) S' answer := by
  obtain ⟨t,rooted,balanced,list⟩ := rep.stands r
  have cut := cutAscending (sorted r) k
  have deletes := deleteTree compare k rooted balanced
  rw [towardSide ranks] at deletes
  rw [← list] at cut
  cases removed : remove (sideOf (keyOf key) order k) t with
  | none =>
    have absent := removeNone cut removed
    rw [removed] at deletes
    rw [list] at absent
    rw [Shelf.call,Shelf.lookup,absent] at step
    cases step
    exact ⟨m,by simp only [exec,deletes,okBind]; rfl,rep⟩
  | some pair =>
    obtain ⟨x,u⟩ := pair
    obtain ⟨even,nodes,present⟩ := removeSome cut balanced removed
    rw [removed] at deletes
    obtain ⟨m',n,deletes,fresh,left,data,same⟩ := deletes
    rw [list] at nodes present same
    have present : S.lookup key order r k = some x := present
    rw [Shelf.call,present] at step
    cases step
    exact ⟨m',by simp only [exec,deletes,okBind]; rfl,dropRepresents rep present left data ⟨u,fresh,even,nodes⟩ same⟩

theorem execStep (ranks : Ranks compare key order) (rep : Represents m S) (sorted : Sorted key order S)
    {c : Call ρ δ κ} (step : S.call key order c = some (S',answer)) : Met compare m c S' answer := by
  cases c with
  | fill a n => exact fillStep rep step
  | insert r a k => exact insertStep ranks rep sorted step
  | insertInform r a k holder => exact informStep ranks rep sorted step
  | removeInsert r a k => exact removeInsertStep ranks rep sorted step
  | delete r k => exact deleteStep ranks rep sorted step
  | search r k =>
    cases step
    exact ⟨m,by simp only [exec,(searchStep ranks rep sorted r k).1,okBind]; rfl,rep⟩
  | successor r k =>
    cases step
    exact ⟨m,by simp only [exec,(searchStep ranks rep sorted r k).2.1,okBind]; rfl,rep⟩
  | predecessor r k =>
    cases step
    exact ⟨m,by simp only [exec,(searchStep ranks rep sorted r k).2.2,okBind]; rfl,rep⟩
  | minimum r =>
    cases step
    exact ⟨m,by simp only [exec,(endsStep rep r).1,okBind]; rfl,rep⟩
  | maximum r =>
    cases step
    exact ⟨m,by simp only [exec,(endsStep rep r).2,okBind]; rfl,rep⟩
  | erase r =>
    cases step
    obtain ⟨m',erased,after⟩ := eraseStep rep r
    exact ⟨m',by simp only [exec,erased,okBind]; rfl,after⟩

theorem runSteps (ranks : Ranks compare key order) (cs : List (Call ρ δ κ)) {answers : List Answer} (rep : Represents m S)
    (sorted : Sorted key order S) (legal : S.run key order cs = some (S',answers)) :
    ∃ m',run compare m cs = .ok (m',answers) ∧ Represents m' S' := by
  induction cs generalizing m S answers with
  | nil =>
    cases legal
    exact ⟨m,rfl,rep⟩
  | cons c cs ih =>
    rw [Shelf.run] at legal
    obtain ⟨⟨S₁,answer⟩,step,legal⟩ := Option.bind_eq_some_iff.mp legal
    obtain ⟨⟨S₂,rest⟩,later,legal⟩ := Option.bind_eq_some_iff.mp legal
    cases legal
    obtain ⟨m₁,first,rep⟩ := execStep ranks rep sorted step
    obtain ⟨m₂,second,last⟩ := ih rep (sortedCall sorted step) later
    exact ⟨m₂,by simp only [run,first,second,okBind]; rfl,last⟩

end steps

end MipsElfExec.Avllib

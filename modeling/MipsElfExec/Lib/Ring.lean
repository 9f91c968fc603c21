import Mathlib.Data.List.Chain
import Mathlib.Data.List.Nodup
import Mathlib.Logic.Function.Basic

/-! Circular doubly linked lists threaded through their items. A family of list
heads shares one pair of link fields, so an item is on at most one list of the family;
`Rings` says which items are on which list and in what order. -/
namespace MipsElfExec.Ring

inductive Node (κ ι : Type) where
  | head (k : κ)
  | item (i : ι)
  deriving DecidableEq, Repr

structure Links (κ ι : Type) where
  next : Node κ ι → Node κ ι
  prev : Node κ ι → Node κ ι

variable {κ ι : Type}

def Links.empty : Links κ ι := ⟨fun n => n,fun n => n⟩

section edits
variable [DecidableEq κ] [DecidableEq ι]

def Links.setNext (L : Links κ ι) (a b : Node κ ι) : Links κ ι :=
  { L with next := fun n => if n = a then b else L.next n }

def Links.setPrev (L : Links κ ι) (a b : Node κ ι) : Links κ ι :=
  { L with prev := fun n => if n = a then b else L.prev n }

def Links.insert (L : Links κ ι) (x p q : Node κ ι) : Links κ ι :=
  (((L.setPrev q x).setNext x q).setPrev x p).setNext p x

def Links.join (L : Links κ ι) (p q : Node κ ι) : Links κ ι := (L.setPrev q p).setNext p q

def listAdd (L : Links κ ι) (i : ι) (k : κ) : Links κ ι := L.insert (.item i) (.head k) (L.next (.head k))

def listAddTail (L : Links κ ι) (i : ι) (k : κ) : Links κ ι := L.insert (.item i) (L.prev (.head k)) (.head k)

def listDel (L : Links κ ι) (i : ι) : Links κ ι := L.join (L.prev (.item i)) (L.next (.item i))

def listDelInit (L : Links κ ι) (i : ι) : Links κ ι :=
  ((listDel L i).setNext (.item i) (.item i)).setPrev (.item i) (.item i)

-- A head that is initialised anew forgets the items of its list.
def initListHead (L : Links κ ι) (k : κ) : Links κ ι := (L.setNext (.head k) (.head k)).setPrev (.head k) (.head k)

def listEmpty (L : Links κ ι) (k : κ) : Bool := L.next (.head k) = .head k

end edits

def Linked (L : Links κ ι) (a b : Node κ ι) : Prop := L.next a = b ∧ L.prev b = a

def nodes (κ : Type) {ι : Type} (xs : List ι) : List (Node κ ι) := xs.map Node.item

def circle (k : κ) (xs : List ι) : List (Node κ ι) := .head k :: nodes κ xs ++ [.head k]

structure Rings (L : Links κ ι) (lists : κ → List ι) : Prop where
  ring : ∀ k,(circle k (lists k)).IsChain (Linked L)
  nodup : ∀ k,(lists k).Nodup
  apart : ∀ {j k i},i ∈ lists j → i ∈ lists k → j = k

variable {L M : Links κ ι} {lists : κ → List ι}

theorem chainCongr {l : List (Node κ ι)} (chain : l.IsChain (Linked L)) (next : ∀ n ∈ l.dropLast,M.next n = L.next n)
    (prev : ∀ n ∈ l.tail,M.prev n = L.prev n) : l.IsChain (Linked M) := by
  induction l with
  | nil => exact .nil
  | cons a l ih =>
    cases l with
    | nil => exact .singleton a
    | cons b l =>
      rw [List.isChain_cons_cons] at chain ⊢
      obtain ⟨⟨go,back⟩,rest⟩ := chain
      refine ⟨⟨(next a (by simp)).trans go,(prev b (by simp)).trans back⟩,ih rest ?_ ?_⟩
      · intro n mem
        exact next n (by rw [List.dropLast_cons_cons]; exact List.mem_cons_of_mem a mem)
      · intro n mem
        exact prev n (List.mem_of_mem_tail mem)

theorem memNodes {n : Node κ ι} {xs : List ι} : n ∈ nodes κ xs ↔ ∃ i ∈ xs,n = .item i := by
  unfold nodes
  rw [List.mem_map]
  exact ⟨fun ⟨i,mem,same⟩ => ⟨i,mem,same.symm⟩,fun ⟨i,mem,same⟩ => ⟨i,mem,same.symm⟩⟩

theorem headNotNode (k : κ) (xs : List ι) : Node.head k ∉ nodes κ xs := by
  simp [nodes]

theorem circleNext {k : κ} {xs : List ι} : (circle k xs).dropLast = .head k :: nodes κ xs :=
  List.dropLast_concat

theorem circlePrev {k : κ} {xs : List ι} : (circle k xs).tail = nodes κ xs ++ [.head k] := rfl

theorem circleSplit (k : κ) {as bs : List ι} (nodup : (as ++ bs).Nodup) : ∃ front p q back,
    circle k (as ++ bs) = front ++ p :: q :: back ∧
    (∀ i,circle k (as ++ i :: bs) = front ++ p :: .item i :: q :: back) ∧
    (as = [] → p = Node.head k) ∧ (bs = [] → q = Node.head k) ∧
    p ∈ Node.head k :: nodes κ as ∧ q ∈ nodes κ bs ++ [Node.head k] ∧
    p ∉ front ∧ p ∉ (q :: back).dropLast ∧ q ∉ (front ++ [p]).tail ∧ q ∉ back := by
  have items : (nodes κ as ++ nodes κ bs).Nodup := by
    unfold nodes
    rw [← List.map_append]
    exact nodup.map fun _ _ same => Node.item.inj same
  obtain ⟨left,right,apart⟩ := List.nodup_append.mp items
  have headLeft := headNotNode k as
  have headRight := headNotNode k bs
  obtain ⟨front,p,before⟩ := List.eq_nil_or_concat (Node.head k :: nodes κ as) |>.resolve_left (by simp)
  obtain ⟨q,back,behind⟩ := List.exists_cons_of_ne_nil (List.concat_ne_nil (Node.head k) (nodes κ bs))
  rw [List.concat_eq_append] at before
  have pIn : p ∈ Node.head k :: nodes κ as := by rw [before]; simp
  have qIn : q ∈ nodes κ bs ++ [Node.head k] := by rw [behind]; simp
  have beforeNodup : (Node.head k :: nodes κ as).Nodup := List.nodup_cons.mpr ⟨headLeft,left⟩
  have behindNodup : (nodes κ bs ++ [Node.head k]).Nodup := by
    rw [List.nodup_append]
    refine ⟨right,List.nodup_singleton _,?_⟩
    intro a inside b same
    rw [List.mem_singleton] at same
    rintro rfl
    exact headRight (same ▸ inside)
  refine ⟨front,p,q,back,?_,fun i => ?_,?_,?_,pIn,qIn,?_,?_,?_,?_⟩
  · have cut : circle k (as ++ bs) = (Node.head k :: nodes κ as) ++ (nodes κ bs ++ [Node.head k]) := by
      simp [circle,nodes]
    rw [cut,before,behind,List.append_assoc]
    rfl
  · have cut : circle k (as ++ i :: bs) =
        (Node.head k :: nodes κ as) ++ .item i :: (nodes κ bs ++ [Node.head k]) := by
      simp [circle,nodes]
    rw [cut,before,behind,List.append_assoc]
    rfl
  · rintro rfl
    simpa [nodes] using pIn
  · rintro rfl
    simpa [nodes] using qIn
  · rw [before,List.nodup_append] at beforeNodup
    intro inside
    exact beforeNodup.2.2 p inside p (by simp) rfl
  · rw [← behind,List.dropLast_concat]
    intro inside
    rcases List.mem_cons.mp pIn with same | mem
    · exact headRight (same ▸ inside)
    · exact apart p mem p inside rfl
  · rw [← before,List.tail_cons]
    intro inside
    rcases List.mem_append.mp qIn with mem | same
    · exact apart q inside q mem rfl
    · exact headLeft (List.mem_singleton.mp same ▸ inside)
  · rw [behind,List.nodup_cons] at behindNodup
    exact behindNodup.1

theorem ringsApart (R : Rings L lists) {j k : κ} (other : j ≠ k) {n : Node κ ι}
    (here : n = .head k ∨ n ∈ nodes κ (lists k)) : n ≠ .head j ∧ ∀ i ∈ lists j,n ≠ .item i := by
  rcases here with head | mem
  · rw [head]
    exact ⟨fun same => other (Node.head.inj same).symm,nofun⟩
  · obtain ⟨i,inside,item⟩ := memNodes.mp mem
    rw [item]
    refine ⟨nofun,fun i' inside' same => ?_⟩
    cases Node.item.inj same
    exact other (R.apart inside' inside)

theorem ringsFirst (R : Rings L lists) (k : κ) :
    L.next (.head k) = match lists k with
      | [] => .head k
      | i :: _ => .item i := by
  have chain := R.ring k
  cases items : lists k with
  | nil =>
    rw [items] at chain
    exact (List.isChain_cons_cons.mp chain).1.1
  | cons i rest =>
    rw [items] at chain
    exact (List.isChain_cons_cons.mp chain).1.1

theorem chainNext {l : List (Node κ ι)} (chain : l.IsChain (Linked L)) {n : Node κ ι} (mem : n ∈ l.dropLast) :
    L.next n ∈ l.tail := by
  induction l with
  | nil => cases mem
  | cons a l ih =>
    cases l with
    | nil => cases mem
    | cons b l =>
      rw [List.isChain_cons_cons] at chain
      obtain ⟨⟨go,_⟩,rest⟩ := chain
      rw [List.dropLast_cons_cons] at mem
      rcases List.mem_cons.mp mem with rfl | later
      · rw [go]
        exact List.mem_cons_self
      · exact List.mem_cons_of_mem b (ih rest later)

theorem ringsNext (R : Rings L lists) {k : κ} {n : Node κ ι} (here : n ∈ Node.head k :: nodes κ (lists k)) :
    L.next n = .head k ∨ ∃ i ∈ lists k,L.next n = .item i := by
  have next := chainNext (R.ring k) (circleNext ▸ here)
  rw [circlePrev,List.mem_append,memNodes,List.mem_singleton] at next
  exact next.symm

theorem chainUnique {k : κ} {n : Node κ ι} {xs ys : List ι} (first : (n :: nodes κ xs ++ [Node.head k]).IsChain (Linked L))
    (second : (n :: nodes κ ys ++ [Node.head k]).IsChain (Linked L)) : xs = ys := by
  induction xs generalizing n ys with
  | nil =>
    have stop := (List.isChain_cons_cons.mp first).1.1
    cases ys with
    | nil => rfl
    | cons y ys => cases stop.symm.trans (List.isChain_cons_cons.mp second).1.1
  | cons x xs ih =>
    obtain ⟨go,rest⟩ := List.isChain_cons_cons.mp first
    cases ys with
    | nil => cases go.1.symm.trans (List.isChain_cons_cons.mp second).1.1
    | cons y ys =>
      obtain ⟨same,rest'⟩ := List.isChain_cons_cons.mp second
      cases Node.item.inj (go.1.symm.trans same.1)
      rw [ih rest rest']

theorem ringsUnique {lists' : κ → List ι} (R : Rings L lists) (R' : Rings L lists') : lists = lists' :=
  funext fun k => chainUnique (R.ring k) (R'.ring k)

theorem emptyRings : Rings (Links.empty : Links κ ι) fun _ => [] :=
  ⟨fun _ => List.isChain_cons_cons.mpr ⟨⟨rfl,rfl⟩,.singleton _⟩,fun _ => List.nodup_nil,nofun⟩

section edited
variable [DecidableEq κ] [DecidableEq ι]

theorem circleCongr {k : κ} {xs : List ι} (chain : (circle k xs).IsChain (Linked L))
    (next : ∀ n,M.next n ≠ L.next n → n ≠ .head k ∧ ∀ i ∈ xs,n ≠ .item i)
    (prev : ∀ n,M.prev n ≠ L.prev n → n ≠ .head k ∧ ∀ i ∈ xs,n ≠ .item i) :
    (circle k xs).IsChain (Linked M) := by
  refine chainCongr chain (fun n mem => ?_) (fun n mem => ?_)
  · refine Decidable.byContradiction fun differ => ?_
    obtain ⟨head,items⟩ := next n differ
    rw [circleNext,List.mem_cons,memNodes] at mem
    rcases mem with same | ⟨i,inside,same⟩
    · exact head same
    · exact items i inside same
  · refine Decidable.byContradiction fun differ => ?_
    obtain ⟨head,items⟩ := prev n differ
    rw [circlePrev,List.mem_append,memNodes,List.mem_singleton] at mem
    rcases mem with ⟨i,inside,same⟩ | same
    · exact items i inside same
    · exact head same

theorem insertNext (L : Links κ ι) (x p q n : Node κ ι) (h : (L.insert x p q).next n ≠ L.next n) : n = p ∨ n = x := by
  refine Decidable.byContradiction fun other => h ?_
  rw [not_or] at other
  simp [Links.insert,Links.setNext,Links.setPrev,other.1,other.2]

theorem insertPrev (L : Links κ ι) (x p q n : Node κ ι) (h : (L.insert x p q).prev n ≠ L.prev n) : n = q ∨ n = x := by
  refine Decidable.byContradiction fun other => h ?_
  rw [not_or] at other
  simp [Links.insert,Links.setNext,Links.setPrev,other.1,other.2]

theorem joinNext (L : Links κ ι) (p q n : Node κ ι) (h : (L.join p q).next n ≠ L.next n) : n = p := by
  refine Decidable.byContradiction fun other => h ?_
  simp [Links.join,Links.setNext,Links.setPrev,other]

theorem joinPrev (L : Links κ ι) (p q n : Node κ ι) (h : (L.join p q).prev n ≠ L.prev n) : n = q := by
  refine Decidable.byContradiction fun other => h ?_
  simp [Links.join,Links.setNext,Links.setPrev,other]

theorem chainInsert {x p q : Node κ ι} {front back : List (Node κ ι)}
    (chain : (front ++ p :: q :: back).IsChain (Linked L)) (fresh : x ∉ front ++ p :: q :: back)
    (pFront : p ∉ front) (pBack : p ∉ (q :: back).dropLast) (qFront : q ∉ (front ++ [p]).tail) (qBack : q ∉ back) :
    (front ++ p :: x :: q :: back).IsChain (Linked (L.insert x p q)) := by
  rw [List.isChain_append_cons_cons] at chain ⊢
  obtain ⟨before,_,after⟩ := chain
  have xp : x ≠ p := fun same => fresh (by simp [same])
  have xq : x ≠ q := fun same => fresh (by simp [same])
  refine ⟨chainCongr before (fun n mem => ?_) (fun n mem => ?_),⟨?_,?_⟩,?_⟩
  · rw [List.dropLast_concat] at mem
    refine Decidable.byContradiction fun differ => ?_
    rcases insertNext L x p q n differ with same | same
    · exact pFront (same ▸ mem)
    · exact fresh (by simp [← same,mem])
  · refine Decidable.byContradiction fun differ => ?_
    rcases insertPrev L x p q n differ with same | same
    · exact qFront (same ▸ mem)
    · have inside := List.mem_of_mem_tail mem
      rw [same] at inside
      simp only [List.mem_append,List.mem_singleton,xp,or_false] at inside
      exact fresh (by simp [inside])
  · simp [Links.insert,Links.setNext]
  · simp [Links.insert,Links.setNext,Links.setPrev]
  · rw [List.isChain_cons_cons]
    refine ⟨⟨?_,?_⟩,chainCongr after (fun n mem => ?_) (fun n mem => ?_)⟩
    · simp [Links.insert,Links.setNext,Links.setPrev,xp]
    · simp [Links.insert,Links.setNext,Links.setPrev,xq.symm]
    · refine Decidable.byContradiction fun differ => ?_
      rcases insertNext L x p q n differ with same | same
      · exact pBack (same ▸ mem)
      · have inside := List.dropLast_subset _ mem
        rw [same] at inside
        exact fresh (by simp only [List.mem_append,List.mem_cons] at inside ⊢; exact Or.inr (Or.inr inside))
    · refine Decidable.byContradiction fun differ => ?_
      rcases insertPrev L x p q n differ with same | same
      · exact qBack (same ▸ mem)
      · rw [same] at mem
        exact fresh (by simp [show x ∈ back from mem])

theorem chainJoin {x p q : Node κ ι} {front back : List (Node κ ι)}
    (chain : (front ++ p :: x :: q :: back).IsChain (Linked L))
    (pFront : p ∉ front) (pBack : p ∉ (q :: back).dropLast) (qFront : q ∉ (front ++ [p]).tail) (qBack : q ∉ back) :
    L.prev x = p ∧ L.next x = q ∧ (front ++ p :: q :: back).IsChain (Linked (L.join p q)) := by
  rw [List.isChain_append_cons_cons,List.isChain_cons_cons] at chain
  obtain ⟨before,⟨_,prev⟩,⟨next,_⟩,after⟩ := chain
  refine ⟨prev,next,?_⟩
  rw [List.isChain_append_cons_cons]
  refine ⟨chainCongr before (fun n mem => ?_) (fun n mem => ?_),⟨?_,?_⟩,
    chainCongr after (fun n mem => ?_) (fun n mem => ?_)⟩
  · rw [List.dropLast_concat] at mem
    exact Decidable.byContradiction fun differ => pFront (joinNext L p q n differ ▸ mem)
  · exact Decidable.byContradiction fun differ => qFront (joinPrev L p q n differ ▸ mem)
  · simp [Links.join,Links.setNext]
  · simp [Links.join,Links.setNext,Links.setPrev]
  · exact Decidable.byContradiction fun differ => pBack (joinNext L p q n differ ▸ mem)
  · exact Decidable.byContradiction fun differ => qBack (joinPrev L p q n differ ▸ mem)

theorem circleInsert {k : κ} {as bs : List ι} (chain : (circle k (as ++ bs)).IsChain (Linked L))
    (nodup : (as ++ bs).Nodup) {i : ι} (fresh : i ∉ as ++ bs) : ∃ p q,
    L.next p = q ∧ L.prev q = p ∧ (as = [] → p = .head k) ∧ (bs = [] → q = .head k) ∧
    p ∈ Node.head k :: nodes κ as ∧ q ∈ nodes κ bs ++ [Node.head k] ∧
    (circle k (as ++ i :: bs)).IsChain (Linked (L.insert (.item i) p q)) := by
  obtain ⟨front,p,q,back,whole,wider,first,last,pIn,qIn,pFront,pBack,qFront,qBack⟩ := circleSplit k nodup
  have free : Node.item i ∉ circle k (as ++ bs) := by simpa [circle,nodes] using fresh
  rw [whole] at chain free
  obtain ⟨next,prev⟩ := (List.isChain_append_cons_cons.mp chain).2.1
  refine ⟨p,q,next,prev,first,last,pIn,qIn,?_⟩
  rw [wider i]
  exact chainInsert chain free pFront pBack qFront qBack

theorem circleJoin {k : κ} {as bs : List ι} {i : ι} (chain : (circle k (as ++ i :: bs)).IsChain (Linked L))
    (nodup : (as ++ bs).Nodup) : ∃ p q,L.prev (.item i) = p ∧ L.next (.item i) = q ∧
    p ∈ Node.head k :: nodes κ as ∧ q ∈ nodes κ bs ++ [Node.head k] ∧
    (circle k (as ++ bs)).IsChain (Linked (L.join p q)) := by
  obtain ⟨front,p,q,back,whole,wider,_,_,pIn,qIn,pFront,pBack,qFront,qBack⟩ := circleSplit k nodup
  rw [wider i] at chain
  obtain ⟨prev,next,joined⟩ := chainJoin chain pFront pBack qFront qBack
  refine ⟨p,q,prev,next,pIn,qIn,?_⟩
  rw [whole]
  exact joined

theorem ringsInsert (R : Rings L lists) {k : κ} {as bs : List ι} (split_ : lists k = as ++ bs) {i : ι}
    (fresh : ∀ j,i ∉ lists j) : ∃ p q,
    L.next p = q ∧ L.prev q = p ∧ (as = [] → p = .head k) ∧ (bs = [] → q = .head k) ∧
    Rings (L.insert (.item i) p q) (Function.update lists k (as ++ i :: bs)) := by
  have chain := R.ring k
  have nodup := R.nodup k
  have free := fresh k
  rw [split_] at chain nodup free
  obtain ⟨p,q,next,prev,first,last,pIn,qIn,wider⟩ := circleInsert chain nodup free
  have pHere : p = .head k ∨ p ∈ nodes κ (lists k) := by
    rcases List.mem_cons.mp pIn with same | mem
    · exact Or.inl same
    · exact Or.inr (by rw [split_]; simp only [nodes,List.map_append,List.mem_append] at mem ⊢; exact Or.inl mem)
  have qHere : q = .head k ∨ q ∈ nodes κ (lists k) := by
    rcases List.mem_append.mp qIn with mem | same
    · exact Or.inr (by rw [split_]; simp only [nodes,List.map_append,List.mem_append] at mem ⊢; exact Or.inr mem)
    · exact Or.inl (List.mem_singleton.mp same)
  have new (j : κ) : Node.item i ≠ .head j ∧ ∀ i' ∈ lists j,(Node.item i : Node κ ι) ≠ .item i' :=
    ⟨nofun,fun i' inside same => fresh j (by cases same; exact inside)⟩
  refine ⟨p,q,next,prev,first,last,⟨fun j => ?_,fun j => ?_,fun {j j' i'} inside inside' => ?_⟩⟩
  · rcases Decidable.em (j = k) with rfl | other
    · rw [Function.update_self]
      exact wider
    · rw [Function.update_of_ne other]
      refine circleCongr (R.ring j) (fun n differ => ?_) (fun n differ => ?_)
      · rcases insertNext _ _ _ _ _ differ with same | same
        · exact same ▸ ringsApart R other pHere
        · exact same ▸ new j
      · rcases insertPrev _ _ _ _ _ differ with same | same
        · exact same ▸ ringsApart R other qHere
        · exact same ▸ new j
  · rcases Decidable.em (j = k) with rfl | other
    · rw [Function.update_self]
      exact (List.perm_middle.nodup_iff).mpr (List.nodup_cons.mpr ⟨free,nodup⟩)
    · rw [Function.update_of_ne other]
      exact R.nodup j
  · have old {j i'} (inside : i' ∈ Function.update lists k (as ++ i :: bs) j) : i' = i ∧ j = k ∨ i' ∈ lists j := by
      rcases Decidable.em (j = k) with rfl | other
      · rw [Function.update_self] at inside
        rw [split_,List.mem_append]
        rw [List.mem_append,List.mem_cons] at inside
        rcases inside with a | same | b
        · exact Or.inr (Or.inl a)
        · exact Or.inl ⟨same,rfl⟩
        · exact Or.inr (Or.inr b)
      · rw [Function.update_of_ne other] at inside
        exact Or.inr inside
    rcases old inside with ⟨rfl,rfl⟩ | a <;> rcases old inside' with ⟨same,rfl⟩ | b
    · rfl
    · exact (fresh _ b).elim
    · exact (fresh _ (same ▸ a)).elim
    · exact R.apart a b

theorem ringsAdd (R : Rings L lists) {i : ι} (fresh : ∀ j,i ∉ lists j) (k : κ) :
    Rings (listAdd L i k) (Function.update lists k (i :: lists k)) := by
  have all : lists k = [] ++ lists k := rfl
  obtain ⟨p,q,next,_,first,_,added⟩ := ringsInsert R all fresh
  cases first rfl
  cases next
  exact added

theorem ringsAddTail (R : Rings L lists) {i : ι} (fresh : ∀ j,i ∉ lists j) (k : κ) :
    Rings (listAddTail L i k) (Function.update lists k (lists k ++ [i])) := by
  have all : lists k = lists k ++ [] := (List.append_nil _).symm
  obtain ⟨p,q,_,prev,_,last,added⟩ := ringsInsert R all fresh
  cases last rfl
  cases prev
  exact added

theorem ringsDel (R : Rings L lists) {k : κ} {as bs : List ι} {i : ι} (split_ : lists k = as ++ i :: bs) :
    Rings (listDel L i) (Function.update lists k (as ++ bs)) := by
  have chain := R.ring k
  have nodup := R.nodup k
  rw [split_] at chain nodup
  have rest := (List.nodup_cons.mp (List.perm_middle.nodup_iff.mp nodup)).2
  obtain ⟨p,q,prev,next,pIn,qIn,joined⟩ := circleJoin chain rest
  have within {j i'} (inside : i' ∈ Function.update lists k (as ++ bs) j) : i' ∈ lists j := by
    rcases Decidable.em (j = k) with rfl | other
    · rw [Function.update_self] at inside
      rw [split_]
      simp only [List.mem_append,List.mem_cons] at inside ⊢
      rcases inside with a | b
      · exact Or.inl a
      · exact Or.inr (Or.inr b)
    · rwa [Function.update_of_ne other] at inside
  have here {n : Node κ ι} (part : n = .head k ∨ ∃ i' ∈ as ++ bs,n = .item i') :
      n = .head k ∨ n ∈ nodes κ (lists k) := by
    rcases part with head | ⟨i',inside,item⟩
    · exact Or.inl head
    · exact Or.inr (memNodes.mpr ⟨i',within (by rwa [Function.update_self]),item⟩)
  have pHere : p = .head k ∨ p ∈ nodes κ (lists k) := by
    rcases List.mem_cons.mp pIn with same | mem
    · exact Or.inl same
    · obtain ⟨i',inside,item⟩ := memNodes.mp mem
      exact here (Or.inr ⟨i',List.mem_append_left bs inside,item⟩)
  have qHere : q = .head k ∨ q ∈ nodes κ (lists k) := by
    rcases List.mem_append.mp qIn with mem | same
    · obtain ⟨i',inside,item⟩ := memNodes.mp mem
      exact here (Or.inr ⟨i',List.mem_append_right as inside,item⟩)
    · exact Or.inl (List.mem_singleton.mp same)
  unfold listDel
  rw [prev,next]
  refine ⟨fun j => ?_,fun j => ?_,fun {j j' i'} inside inside' => R.apart (within inside) (within inside')⟩
  · rcases Decidable.em (j = k) with rfl | other
    · rw [Function.update_self]
      exact joined
    · rw [Function.update_of_ne other]
      refine circleCongr (R.ring j) (fun n differ => ?_) (fun n differ => ?_)
      · exact joinNext _ _ _ _ differ ▸ ringsApart R other pHere
      · exact joinPrev _ _ _ _ differ ▸ ringsApart R other qHere
  · rcases Decidable.em (j = k) with rfl | other
    · rw [Function.update_self]
      exact rest
    · rw [Function.update_of_ne other]
      exact R.nodup j

omit [DecidableEq ι] in
theorem memDel (R : Rings L lists) {k : κ} {as bs : List ι} {i : ι} (split_ : lists k = as ++ i :: bs) {j m} :
    j ∈ Function.update lists k (as ++ bs) m ↔ j ∈ lists m ∧ j ≠ i := by
  have nodup := R.nodup k
  rw [split_] at nodup
  have gone := (List.nodup_cons.mp (List.perm_middle.nodup_iff.mp nodup)).1
  rcases Decidable.em (m = k) with rfl | other
  · rw [Function.update_self,split_]
    constructor
    · intro inside
      refine ⟨?_,fun same => gone (same ▸ inside)⟩
      simp only [List.mem_append,List.mem_cons] at inside ⊢
      rcases inside with a | b
      · exact Or.inl a
      · exact Or.inr (Or.inr b)
    · rintro ⟨inside,differ⟩
      simpa [differ] using inside
  · rw [Function.update_of_ne other]
    refine ⟨fun inside => ⟨inside,?_⟩,fun inside => inside.1⟩
    rintro rfl
    exact other (R.apart inside (by rw [split_]; simp))

omit [DecidableEq ι] in
theorem memAdd (lists : κ → List ι) {k : κ} {i j : ι} {m : κ} :
    j ∈ Function.update lists k (i :: lists k) m ↔ j ∈ lists m ∨ j = i ∧ m = k := by
  rcases Decidable.em (m = k) with rfl | other
  · simp [or_comm]
  · simp [other]

omit [DecidableEq ι] in
theorem memAddTail {k : κ} {i j : ι} {m : κ} :
    j ∈ Function.update lists k (lists k ++ [i]) m ↔ j ∈ lists m ∨ j = i ∧ m = k := by
  rcases Decidable.em (m = k) with rfl | other
  · simp
  · simp [other]

omit [DecidableEq ι] in
theorem ringsGone (R : Rings L lists) {k : κ} {as bs : List ι} {i : ι} (split_ : lists k = as ++ i :: bs) (j : κ) :
    i ∉ Function.update lists k (as ++ bs) j :=
  fun inside => ((memDel R split_).mp inside).2 rfl

theorem ringsDelInit (R : Rings L lists) {k : κ} {as bs : List ι} {i : ι} (split_ : lists k = as ++ i :: bs) :
    Rings (listDelInit L i) (Function.update lists k (as ++ bs)) := by
  have deleted := ringsDel R split_
  have gone := ringsGone R split_
  refine ⟨fun j => circleCongr (deleted.ring j) (fun n differ => ?_) (fun n differ => ?_),deleted.nodup,deleted.apart⟩
  all_goals
    have same : n = .item i := by
      refine Decidable.byContradiction fun other => differ ?_
      simp [listDelInit,Links.setNext,Links.setPrev,other]
    rw [same]
    exact ⟨nofun,fun i' inside bad => gone j (by cases bad; exact inside)⟩

theorem ringsInit (R : Rings L lists) (k : κ) : Rings (initListHead L k) (Function.update lists k []) := by
  have part {j : κ} {i : ι} (inside : i ∈ Function.update lists k [] j) : j ≠ k ∧ i ∈ lists j := by
    rcases Decidable.em (j = k) with rfl | other
    · rw [Function.update_self] at inside
      cases inside
    · rw [Function.update_of_ne other] at inside
      exact ⟨other,inside⟩
  refine ⟨fun j => ?_,fun j => ?_,fun inside inside' => R.apart (part inside).2 (part inside').2⟩
  · rcases Decidable.em (j = k) with rfl | other
    · rw [Function.update_self]
      refine List.isChain_cons_cons.mpr ⟨⟨?_,?_⟩,.singleton _⟩ <;> simp [initListHead,Links.setNext,Links.setPrev]
    · rw [Function.update_of_ne other]
      refine circleCongr (R.ring j) (fun n differ => ?_) (fun n differ => ?_)
      all_goals
        have same : n = .head k := by
          refine Decidable.byContradiction fun differs => differ ?_
          simp [initListHead,Links.setNext,Links.setPrev,differs]
        rw [same]
        exact ⟨fun bad => other (Node.head.inj bad).symm,nofun⟩
  · rcases Decidable.em (j = k) with rfl | other
    · rw [Function.update_self]
      exact List.nodup_nil
    · rw [Function.update_of_ne other]
      exact R.nodup j

theorem ringsEmpty (R : Rings L lists) (k : κ) : listEmpty L k = true ↔ lists k = [] := by
  unfold listEmpty
  rw [ringsFirst R k,decide_eq_true_iff]
  cases lists k <;> simp

def first (k : κ) : List ι → Node κ ι
  | [] => .head k
  | i :: _ => .item i

def dropItem (lists : κ → List ι) (k : κ) (i : ι) : κ → List ι := Function.update lists k ((lists k).erase i)

def addItem (lists : κ → List ι) (k : κ) (i : ι) : κ → List ι := Function.update lists k (lists k ++ [i])

omit [DecidableEq κ] [DecidableEq ι] in
theorem ringsEnter (R : Rings L lists) (k : κ) : L.next (.head k) = first k (lists k) := by
  rw [ringsFirst R k]
  cases lists k <;> rfl

omit [DecidableEq κ] [DecidableEq ι] in
theorem ringsBehind (R : Rings L lists) {k : κ} {as bs : List ι} {i : ι} (items : lists k = as ++ i :: bs) :
    L.next (.item i) = first k bs := by
  have chain := R.ring k
  have whole : ∃ rest,circle k (lists k) = (.head k :: nodes κ as) ++ .item i :: first k bs :: rest := by
    cases bs with
    | nil => exact ⟨[],by simp [circle,nodes,items,first]⟩
    | cons j bs => exact ⟨nodes κ bs ++ [.head k],by simp [circle,nodes,items,first]⟩
  obtain ⟨rest,same⟩ := whole
  rw [same,List.isChain_append_cons_cons] at chain
  exact chain.2.1.1

theorem eraseSplit (R : Rings L lists) {k : κ} {as bs : List ι} {i : ι} (items : lists k = as ++ i :: bs) :
    dropItem lists k i = Function.update lists k (as ++ bs) := by
  have nodup := R.nodup k
  rw [items] at nodup
  have gone : i ∉ as := fun mem => (List.nodup_cons.mp (List.perm_middle.nodup_iff.mp nodup)).1 (List.mem_append_left _ mem)
  rw [dropItem,items,List.erase_append_right _ gone,List.erase_cons_head]

theorem ringsDrop (R : Rings L lists) {k : κ} {i : ι} (mem : i ∈ lists k) :
    Rings (listDelInit L i) (dropItem lists k i) := by
  obtain ⟨as,bs,items⟩ := List.append_of_mem mem
  rw [eraseSplit R items]
  exact ringsDelInit R items

theorem memDrop (R : Rings L lists) {k : κ} {i : ι} (mem : i ∈ lists k) {j m} :
    j ∈ dropItem lists k i m ↔ j ∈ lists m ∧ j ≠ i := by
  obtain ⟨as,bs,items⟩ := List.append_of_mem mem
  rw [eraseSplit R items]
  exact memDel R items

omit [DecidableEq ι] in
theorem memAddItem {k : κ} {i j : ι} {m : κ} : j ∈ addItem lists k i m ↔ j ∈ lists m ∨ j = i ∧ m = k := memAddTail

def fill (k : κ) {m : Nat} : (n : Nat) → n ≤ m → Links κ (Fin m)
  | 0,_ => Links.empty
  | n + 1,small => listAdd (fill k n (Nat.le_of_succ_le small)) ⟨n,small⟩ k

omit [DecidableEq ι] in
theorem ringsFill (k : κ) {m : Nat} (n : Nat) (small : n ≤ m) : ∃ xs : List (Fin m),
    Rings (fill k n small) (Function.update (fun _ => []) k xs) ∧ (∀ i,i ∈ xs ↔ i.val < n) ∧ xs.length = n := by
  induction n with
  | zero => exact ⟨[],by simpa [fill] using emptyRings,by simp,rfl⟩
  | succ n ih =>
    obtain ⟨xs,rings,mem,size⟩ := ih (Nat.le_of_succ_le small)
    have fresh (j : κ) : (⟨n,small⟩ : Fin m) ∉ Function.update (fun _ => []) k xs j := by
      rw [Function.update_apply]
      split
      · rw [mem]
        simp
      · simp
    refine ⟨⟨n,small⟩ :: xs,?_,fun i => ?_,by simp [size]⟩
    · have added := ringsAdd rings fresh k
      rwa [Function.update_self,Function.update_idem] at added
    · rw [List.mem_cons,mem,Fin.ext_iff]
      simp only
      omega

end edited

end MipsElfExec.Ring

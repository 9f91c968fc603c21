import Mathlib.Data.List.Chain
import Mathlib.Logic.Function.Basic
import MipsElfExec.Lib.CString

/-! Packet chains. The connection code works on a chain as the list of its packets
with a count; `getnPackets` shows that the split does on the linked packets what it
is said to do on the list. -/
namespace MipsElfExec.Snooping
open CString

structure EfBuf where
  id : Nat
  data : Bytes
  deriving DecidableEq, Repr

-- `surplus` are packets still linked behind the tail.
structure Chain where
  pkts : List EfBuf
  count : Nat
  surplus : List EfBuf := []
  deriving DecidableEq, Repr

def efBufInitChain : Chain := ⟨[],0,[]⟩

def efBufChain2chain (dst src : Chain) : Chain := ⟨dst.pkts ++ src.pkts,dst.count + src.count,src.surplus⟩

def efBufEfbToChain (pkts : List EfBuf) : Chain := ⟨pkts,pkts.length,[]⟩

def ngxHttpEfGetn (src : Chain) (token : Nat) : Chain × Chain :=
  if token < src.count then
    (⟨src.pkts.take token,token,(src.pkts.drop token).take 1⟩,
      ⟨src.pkts.drop (token + 1),src.count - token,src.surplus⟩)
  else (src,efBufInitChain)

section linked
variable {α : Type} [DecidableEq α]

structure PktChain (α : Type) where
  head : Option α
  tail : Option α
  count : Nat

structure Holds (next : α → Option α) (c : PktChain α) (xs : List α) : Prop where
  head : c.head = xs.head?
  tail : c.tail = xs.getLast?
  count : c.count = xs.length
  links : xs.IsChain fun a b => next a = some b

structure ChainLib (α : Type) where
  efbToChain : (α → Option α) → PktChain α → α → (α → Option α) × PktChain α
  copyChain : PktChain α → PktChain α
  initChain : PktChain α
  appends : ∀ {next c xs p},Holds next c xs → p ∉ xs → Holds (efbToChain next c p).1 (efbToChain next c p).2 (xs ++ [p])
  appendsOnly : ∀ {next c xs p a},Holds next c xs → xs.getLast? ≠ some a → (efbToChain next c p).1 a = next a
  copies : ∀ c,copyChain c = c
  inits : initChain = ⟨none,none,0⟩

-- A NULL efb is dereferenced where the result is none.
def efMove (lib : ChainLib α) : Nat → (α → Option α) → PktChain α → Option α →
    Option ((α → Option α) × PktChain α × Option α)
  | 0,next,dst,efb => some (next,dst,efb)
  | _ + 1,_,_,none => none
  | n + 1,next,dst,some p =>
    let moved := lib.efbToChain next dst p
    efMove lib n moved.1 moved.2 (moved.1 p)

def efGetn (lib : ChainLib α) (next : α → Option α) (src : PktChain α) (token : Nat) :
    Option ((α → Option α) × PktChain α × PktChain α) :=
  if token < src.count then
    match efMove lib token next lib.initChain src.head with
    | some (next,dst,some efb) =>
      some (Function.update next efb none,dst,{ src with head := next efb,count := src.count - token })
    | _ => none
  else some (next,lib.copyChain src,lib.initChain)

omit [DecidableEq α] in
theorem linksCongr {next next' : α → Option α} {xs : List α} (chain : xs.IsChain fun a b => next a = some b)
    (same : ∀ a ∈ xs,next' a = next a) : xs.IsChain fun a b => next' a = some b := by
  induction xs with
  | nil => exact .nil
  | cons a xs ih =>
    cases xs with
    | nil => exact .singleton a
    | cons b xs =>
      rw [List.isChain_cons_cons] at chain ⊢
      exact ⟨(same a (by simp)).trans chain.1,ih chain.2 fun c mem => same c (List.mem_cons_of_mem a mem)⟩

omit [DecidableEq α] in
theorem movePackets (lib : ChainLib α) {n : Nat} {next : α → Option α} {dst : PktChain α} {ys zs : List α}
    (moved : Holds next dst ys) (rest : zs.IsChain fun a b => next a = some b) (nodup : (ys ++ zs).Nodup)
    (ends : ∀ p,zs.getLast? = some p → next p = none) (enough : n ≤ zs.length) :
    ∃ next' dst',efMove lib n next dst zs.head? = some (next',dst',(zs.drop n).head?) ∧
      Holds next' dst' (ys ++ zs.take n) ∧ ∀ a ∈ zs.drop n,next' a = next a := by
  induction n generalizing next dst ys zs with
  | zero => exact ⟨next,dst,rfl,by simpa using moved,fun _ _ => rfl⟩
  | succ n ih =>
    cases zs with
    | nil => cases enough
    | cons p zs =>
      have new : p ∉ ys := fun inside => (List.nodup_append.mp nodup).2.2 p inside p (by simp) rfl
      have keep (a : α) (mem : a ∈ p :: zs) : (lib.efbToChain next dst p).1 a = next a := by
        refine lib.appendsOnly moved fun last => ?_
        have inside : a ∈ ys := List.mem_of_getLast? last
        exact (List.nodup_append.mp nodup).2.2 a inside a mem rfl
      have after : next p = zs.head? := by
        cases zs with
        | nil => exact ends p rfl
        | cons q zs => exact (List.isChain_cons_cons.mp rest).1
      have nodup' : ((ys ++ [p]) ++ zs).Nodup := by simpa using nodup
      have rest' : zs.IsChain fun a b => (lib.efbToChain next dst p).1 a = some b :=
        linksCongr (List.IsChain.tail rest) fun a mem => keep a (List.mem_cons_of_mem p mem)
      have ends' (a : α) (last : zs.getLast? = some a) : (lib.efbToChain next dst p).1 a = none := by
        rw [keep a (List.mem_cons_of_mem p (List.mem_of_getLast? last))]
        refine ends a ?_
        rw [List.getLast?_cons,last]
        rfl
      obtain ⟨next',dst',run,holds,same⟩ :=
        ih (lib.appends moved new) rest' nodup' ends' (Nat.le_of_succ_le_succ enough)
      refine ⟨next',dst',?_,by simpa using holds,fun a mem => ?_⟩
      · rw [List.head?_cons,efMove,keep p (by simp),after]
        exact run
      · exact (same a mem).trans (keep a (List.mem_cons_of_mem p (List.mem_of_mem_drop mem)))

theorem getnPackets (lib : ChainLib α) {next : α → Option α} {src : PktChain α} {xs : List α} {token : Nat}
    (holds : Holds next src xs) (nodup : xs.Nodup) (ends : ∀ p,xs.getLast? = some p → next p = none)
    (more : token < xs.length) : ∃ next' dst src',efGetn lib next src token = some (next',dst,src') ∧
      Holds next' dst (xs.take token) ∧ src'.head = (xs.drop (token + 1)).head? ∧
      src'.count = xs.length - token ∧ (xs.drop (token + 1)).IsChain fun a b => next' a = some b := by
  have empty : Holds next lib.initChain [] := by
    rw [lib.inits]
    exact ⟨rfl,rfl,rfl,.nil⟩
  obtain ⟨next',dst,run,moved,same⟩ := movePackets lib empty holds.links nodup ends (Nat.le_of_lt more)
  obtain ⟨efb,rest,split_⟩ := List.exists_cons_of_ne_nil (mt List.drop_eq_nil_iff.mp (Nat.not_le_of_lt more))
  have tail : xs.drop (token + 1) = rest := by rw [← List.tail_drop,split_,List.tail_cons]
  have links := List.IsChain.drop holds.links token
  rw [split_] at run same links
  have apart : efb ∉ xs.take token ∧ efb ∉ rest := by
    have whole := nodup
    rw [← List.take_append_drop token xs,split_,List.nodup_append] at whole
    exact ⟨fun inside => whole.2.2 efb inside efb (by simp) rfl,(List.nodup_cons.mp whole.2.1).1⟩
  have last : next' efb = rest.head? := by
    rw [same efb (by simp)]
    cases rest with
    | nil =>
      refine ends efb ?_
      rw [← List.take_append_drop token xs,split_,List.getLast?_append]
      rfl
    | cons q rest => exact (List.isChain_cons_cons.mp links).1
  refine ⟨Function.update next' efb none,dst,{ src with head := next' efb,count := src.count - token },?_,?_,?_,?_,?_⟩
  · unfold efGetn
    rw [holds.count,if_pos more,holds.head,run]
    rfl
  · refine ⟨moved.head,moved.tail,moved.count,linksCongr moved.links fun a mem => ?_⟩
    exact Function.update_of_ne (fun same => apart.1 (by simpa [same] using mem)) _ _
  · rw [tail]
    exact last
  · rw [← holds.count]
  · rw [tail]
    refine linksCongr (List.IsChain.tail links) fun a mem => ?_
    have other : a ≠ efb := by
      rintro rfl
      exact apart.2 mem
    rw [Function.update_of_ne other,same a (List.mem_cons_of_mem efb mem)]

theorem getnRefines (lib : ChainLib EfBuf) {next : EfBuf → Option EfBuf} {src : PktChain EfBuf} {xs : List EfBuf}
    {token : Nat} (holds : Holds next src xs) (nodup : xs.Nodup) (ends : ∀ p,xs.getLast? = some p → next p = none) :
    let split_ := ngxHttpEfGetn (efBufEfbToChain xs) token
    ∃ next' dst src',efGetn lib next src token = some (next',dst,src') ∧ Holds next' dst split_.1.pkts ∧
      src'.head = split_.2.pkts.head? ∧ src'.count = split_.2.count ∧
      split_.2.pkts.IsChain fun a b => next' a = some b := by
  unfold ngxHttpEfGetn efBufEfbToChain
  dsimp only
  split
  · rename_i more
    exact getnPackets lib holds nodup ends more
  · rename_i enough
    refine ⟨next,lib.copyChain src,lib.initChain,if_neg (by rwa [holds.count]),?_,?_⟩
    · rw [lib.copies]
      exact holds
    · rw [lib.inits]
      exact ⟨rfl,rfl,.nil⟩

end linked

end MipsElfExec.Snooping

import MipsElfExec.Lib.CString
import MipsElfExec.Lib.Run

/-! The advertisement filter of the proxy. What a server answers to a marked request is gathered in one
buffer that all connections share, until the advertisement in it can be cut out. -/
namespace MipsElfExec.Adv
open CString Run

def validAdStrLen : Nat := 128
def bigVfBufMax : Nat := 1024 * 512

inductive Side where
  | client | server
  deriving DecidableEq, Repr

def Side.other : Side → Side
  | .client => .server
  | .server => .client

inductive AppFlags where
  | none | dropData | proxyData
  deriving DecidableEq, Repr

-- Where a byte came from; the source keeps no such record. The filter's own text comes from nowhere.
structure Origin where
  pair : Nat
  side : Side
  index : Nat
  deriving DecidableEq, Repr

structure Cell where
  byte : Byte
  origin : Option Origin
  deriving DecidableEq, Repr

def text (cells : List Cell) : Bytes := cells.map Cell.byte

def adMark : Bytes := ascii "ad_str"
def lineMark : Bytes := ascii "\\n"
def adStr : List Cell := (ascii "ad_str\":\"\x7b\x7d").map fun b => ⟨b,none⟩

-- A string search runs on into the memory behind a packet.
structure Pkt where
  data : Bytes
  behind : Bytes := []
  deriving DecidableEq, Repr

structure Event where
  pair : Nat
  side : Side
  shutdown : Bool
  packets : List Pkt
  bare : Pkt := ⟨[],[]⟩

-- Behind what was written the buffer is zero. `wild` is set by a copy that leaves the buffer, or of a negative length.
structure AdFilter where
  advStr : Bytes
  bigVfBuf : List Cell := []
  bifVfLen : Nat := 0
  appFlags : Nat → Side → AppFlags := fun _ _ => .none
  wild : Bool := false

def AdFilter.setFlags (f : AdFilter) (pair : Nat) (side : Side) (flags : AppFlags) : AdFilter :=
  { f with appFlags := fun p x => if p = pair ∧ x = side then flags else f.appFlags p x }

def put (buf : List Cell) (pos : Nat) (cells : List Cell) : List Cell :=
  buf.take pos ++ cells ++ buf.drop (pos + cells.length)

def AdFilter.append (f : AdFilter) (cells : List Cell) : AdFilter :=
  { f with
    bigVfBuf := put f.bigVfBuf f.bifVfLen cells
    bifVfLen := f.bifVfLen + cells.length
    wild := f.wild || bigVfBufMax < f.bifVfLen + cells.length }

def adSpan (buf : List Cell) : Option (Nat × Nat) :=
  (strstr (text buf) adMark).bind fun p => (strstr ((text buf).drop p) lineMark).map fun n => (p,n)

def AdFilter.cut (f : AdFilter) (p n : Nat) : AdFilter :=
  let buf := put f.bigVfBuf p adStr
  { f with
    bigVfBuf := put buf (p + 11) ((buf.drop (p + n)).take (f.bifVfLen - (p + n)))
    bifVfLen := f.bifVfLen - n + 11
    wild := f.wild || f.bifVfLen < p + n }

def AdFilter.held (f : AdFilter) : List Cell := f.bigVfBuf.take f.bifVfLen

def AdFilter.flush (f : AdFilter) (pair : Nat) (side : Side) : AdFilter × List Cell :=
  ({ f with bifVfLen := 0 }.setFlags pair side .none,f.held)

def vfProxy (f : AdFilter) (e : Event) (packets : List (List Cell)) : AdFilter × List Cell :=
  let f := packets.foldl AdFilter.append f
  match adSpan f.bigVfBuf with
  | some (p,n) => (if validAdStrLen < n then f.cut p n else f).flush e.pair e.side
  | none => if e.shutdown ∧ f.bifVfLen ≠ 0 then f.flush e.pair e.side else (f,[])

def vfMatches (f : AdFilter) (e : Event) : Bool :=
  let view := e.packets.head?.getD e.bare
  8 < view.data.length && (strstr (view.data ++ view.behind) f.advStr).isSome

def vfForward (f : AdFilter) (e : Event) (packets : List (List Cell)) : AdFilter × List Cell :=
  if vfMatches f e then
    ({ f with bigVfBuf := [],bifVfLen := 0 }.setFlags e.pair e.side.other .proxyData,packets.flatten)
  else if f.appFlags e.pair e.side = .dropData then (f,[])
  else (f,packets.flatten)

def ngxHttpVfDeal (f : AdFilter) (e : Event) (packets : List (List Cell)) : AdFilter × List Cell :=
  if e.packets = [] ∧ e.shutdown = false then (f,[])
  else if f.appFlags e.pair e.side = .proxyData then vfProxy f e packets
  else vfForward f e packets

def mark (pair : Nat) (side : Side) : Nat → Bytes → List Cell
  | _,[] => []
  | k,b :: bs => ⟨b,some ⟨pair,side,k⟩⟩ :: mark pair side (k + 1) bs

def markAll (pair : Nat) (side : Side) : Nat → List Pkt → List (List Cell)
  | _,[] => []
  | k,p :: ps => mark pair side k p.data :: markAll pair side (k + p.data.length) ps

def pktBytes (packets : List Pkt) : Bytes := packets.flatMap Pkt.data

structure Relay extends AdFilter where
  received : Nat → Side → Nat := fun _ _ => 0
  delivered : Nat → List Cell := fun _ => []

def Relay.start (advStr : Bytes) : Relay := { advStr := advStr }

def Relay.marked (s : Relay) (e : Event) : List (List Cell) := markAll e.pair e.side (s.received e.pair e.side) e.packets

def Relay.step (s : Relay) (e : Event) : Option Relay :=
  let (f,sent) := ngxHttpVfDeal s.toAdFilter e (s.marked e)
  some
    { toAdFilter := f
      received := fun p x => if p = e.pair ∧ x = e.side then s.received p x + (pktBytes e.packets).length else s.received p x
      delivered := fun p => if p = e.pair ∧ e.side = .server then s.delivered p ++ sent else s.delivered p }

def indices (cells : List Cell) : List Nat := cells.filterMap fun cell => cell.origin.map Origin.index

def Relay.isolated (s : Relay) : Prop :=
  (∀ c,∀ cell ∈ s.delivered c,cell ∈ adStr ∨ ∃ k,cell.origin = some ⟨c,.server,k⟩) ∧
    (∀ c,(indices (s.delivered c)).Nodup) ∧ s.bifVfLen ≤ bigVfBufMax ∧ s.wild = false

def Cell.source (cell : Cell) : Option (Nat × Side) := cell.origin.map fun origin => (origin.pair,origin.side)

def spanInside (buf : List Cell) (len : Nat) : Bool :=
  match adSpan buf with
  | some (p,n) => n ≤ validAdStrLen || p + n ≤ len
  | none => true

def Relay.heeds (s : Relay) (e : Event) : Prop :=
  s.appFlags e.pair e.side = .proxyData ∧ ¬(e.packets = [] ∧ e.shutdown = false) →
    (∀ cell ∈ s.held,cell.source = some (e.pair,e.side)) ∧
    s.bifVfLen + (pktBytes e.packets).length < bigVfBufMax ∧
    spanInside (put s.bigVfBuf s.bifVfLen (s.marked e).flatten) (s.bifVfLen + (pktBytes e.packets).length) = true

instance (s : Relay) (e : Event) : Decidable (s.heeds e) := by unfold Relay.heeds; infer_instance

section gathering
variable {f : AdFilter} {a b : List Cell}

theorem putLength {buf : List Cell} {pos : Nat} (inside : pos ≤ buf.length) (cells : List Cell) :
    pos + cells.length ≤ (put buf pos cells).length := by
  simp only [put,List.length_append,List.length_take,List.length_drop]
  omega

theorem putTake {buf : List Cell} {pos : Nat} (inside : pos ≤ buf.length) (cells : List Cell) :
    (put buf pos cells).take (pos + cells.length) = buf.take pos ++ cells := by
  have size : (buf.take pos ++ cells).length = pos + cells.length := by
    rw [List.length_append,List.length_take_of_le inside]
  rw [← size]
  exact List.take_left

theorem putDrop {buf : List Cell} {pos n : Nat} (inside : pos ≤ buf.length) {cells : List Cell}
    (beyond : pos + cells.length ≤ n) : (put buf pos cells).drop n = buf.drop n := by
  have size : (buf.take pos ++ cells).length = pos + cells.length := by
    rw [List.length_append,List.length_take_of_le inside]
  obtain ⟨more,rfl⟩ := Nat.exists_eq_add_of_le beyond
  rw [put,← List.drop_drop,← size,List.drop_left,size,List.drop_drop]

theorem putPut {buf : List Cell} {pos : Nat} (inside : pos ≤ buf.length) (a b : List Cell) :
    put (put buf pos a) (pos + a.length) b = put buf pos (a ++ b) := by
  have outer : put (put buf pos a) (pos + a.length) b =
      (put buf pos a).take (pos + a.length) ++ b ++ (put buf pos a).drop (pos + a.length + b.length) := rfl
  rw [outer,putTake inside,putDrop inside (Nat.le_add_right _ _)]
  simp [put,Nat.add_assoc]

theorem appendAppend (fits : f.bifVfLen ≤ f.bigVfBuf.length) : (f.append a).append b = f.append (a ++ b) := by
  have wild : (f.wild || decide (bigVfBufMax < f.bifVfLen + a.length) ||
      decide (bigVfBufMax < f.bifVfLen + (a.length + b.length))) =
      (f.wild || decide (bigVfBufMax < f.bifVfLen + (a.length + b.length))) := by
    rw [Bool.or_assoc,← Bool.decide_or]
    congr 2
    exact propext ⟨by omega,by omega⟩
  simp only [AdFilter.append,putPut fits,List.length_append,Nat.add_assoc,wild]

theorem appendNil (room : f.bifVfLen ≤ bigVfBufMax) : f.append [] = f := by
  simp [AdFilter.append,put,Nat.not_lt_of_le room]

theorem appendMore (fits : f.bifVfLen ≤ f.bigVfBuf.length) (cells : List Cell) (packets : List (List Cell)) :
    packets.foldl AdFilter.append (f.append cells) = f.append (cells ++ packets.flatten) := by
  induction packets generalizing cells with
  | nil => rw [List.foldl_nil,List.flatten_nil,List.append_nil]
  | cons next packets ih =>
    rw [List.foldl_cons,appendAppend fits,ih,List.flatten_cons,List.append_assoc]

theorem appendAll (fits : f.bifVfLen ≤ f.bigVfBuf.length) (room : f.bifVfLen ≤ bigVfBufMax)
    (packets : List (List Cell)) : packets.foldl AdFilter.append f = f.append packets.flatten := by
  have all := appendMore fits [] packets
  rw [appendNil room] at all
  exact all

theorem appendHeld (fits : f.bifVfLen ≤ f.bigVfBuf.length) (cells : List Cell) : (f.append cells).held = f.held ++ cells :=
  putTake fits cells

theorem heldTake (f : AdFilter) {p : Nat} (small : p ≤ f.bifVfLen) : f.held.take p = f.bigVfBuf.take p := by
  rw [AdFilter.held,List.take_take,Nat.min_eq_left small]

theorem cutHeld {p n : Nat} (fits : f.bifVfLen ≤ f.bigVfBuf.length) (long : 11 ≤ n) (inside : p + n ≤ f.bifVfLen) :
    (f.cut p n).held = f.held.take p ++ adStr ++ f.held.drop (p + n) := by
  have eleven : adStr.length = 11 := rfl
  have here : p ≤ f.bigVfBuf.length := by omega
  have behind : (put f.bigVfBuf p adStr).drop (p + n) = f.bigVfBuf.drop (p + n) :=
    putDrop here (by rw [eleven]; omega)
  have front : (put f.bigVfBuf p adStr).take (p + 11) = f.bigVfBuf.take p ++ adStr := putTake here adStr
  have room : p + 11 ≤ (put f.bigVfBuf p adStr).length := putLength here adStr
  have tail : ((f.bigVfBuf.drop (p + n)).take (f.bifVfLen - (p + n))).length = f.bifVfLen - (p + n) := by
    rw [List.length_take_of_le]
    rw [List.length_drop]
    omega
  have size : f.bifVfLen - n + 11 = p + 11 + ((f.bigVfBuf.drop (p + n)).take (f.bifVfLen - (p + n))).length := by
    rw [tail]
    omega
  rw [heldTake f (by omega),AdFilter.held,AdFilter.held,List.drop_take]
  simp only [AdFilter.cut]
  rw [behind,size,putTake room,front]

end gathering

end MipsElfExec.Adv

import MipsElfExec.SnoopClient.FileId

/-! Whether a host is a dotted address. The scanner stands twice in the source, with the same limits under other names. -/
namespace MipsElfExec.SnoopClient
open CString Access

structure AddrLimits where
  lenMax : Nat
  lenMin : Nat
  digitsMax : Nat
  digitsMin : Nat
  dotCntMax : Nat
  valMin : Int
  valMax : Int
  ascLen : Nat

def groupFits (lim : AddrLimits) (digits : Nat) (asc : Bytes) : Checked Bool :=
  if lim.digitsMax < digits ∨ digits < lim.digitsMin then .ok false
  else do
    let num := atoiSigned (cstr (← poke asc digits 0))
    return decide (lim.valMin ≤ num ∧ num ≤ lim.valMax)

def addrLoop (lim : AddrLimits) (dotCnt digits : Nat) (asc : Bytes) : Bytes → Checked Int
  | [] =>
    if dotCnt ≠ lim.dotCntMax then .ok 0
    else do return if ← groupFits lim digits asc then 1 else 0
  | b :: host =>
    if b = 46 then do
      if ← groupFits lim digits asc then
        if lim.dotCntMax < dotCnt + 1 then return 0
        else addrLoop lim (dotCnt + 1) 0 (filled lim.ascLen []) host
      else return 0
    else if isdigit b = false then .ok 0
    else if lim.digitsMax ≤ digits then .ok 0
    else do addrLoop lim dotCnt (digits + 1) (← poke asc digits b) host

def isIpAddr (lim : AddrLimits) : Option Bytes → Checked Int
  | none => .ok 0
  | some host =>
    let len := (cstr host).length
    if lim.lenMax < len ∨ len < lim.lenMin then .ok 0 else addrLoop lim 0 0 (filled lim.ascLen []) (cstr host)

def ipAddrStrMaxLen : Nat := 15
def ipAddrStrMinLen : Nat := 7
def ipAddrDigitsMax : Nat := 3
def ipAddrMaxDotCnt : Nat := 3

def hostIsIpAddr : Option Bytes → Checked Int :=
  isIpAddr ⟨ipAddrStrMaxLen,ipAddrStrMinLen,ipAddrDigitsMax,1,ipAddrMaxDotCnt,0,255,ipAddrDigitsMax + 1⟩

def ipAddrLenMax : Nat := 15
def ipAddrLenMin : Nat := 7
def ipAddrHexBufferLen : Nat := 4
def ipAddrHexDigitsMin : Nat := 1
def ipAddrHexDigitsMax : Nat := 3
def ipAddrDotCount : Nat := 3
def ipAddrHexValMin : Int := 0
def ipAddrHexValMax : Int := 255

def getfileHostIsIpAddr : Option Bytes → Checked Int :=
  isIpAddr ⟨ipAddrLenMax,ipAddrLenMin,ipAddrHexDigitsMax,ipAddrHexDigitsMin,ipAddrDotCount,ipAddrHexValMin,ipAddrHexValMax,
    ipAddrHexBufferLen⟩

structure Octet (group : Bytes) : Prop where
  digits : ∀ b ∈ group,isdigit b = true
  some_ : 1 ≤ group.length
  few : group.length ≤ 3
  value : numeralValue group ≤ 255

def DottedQuad (s : Bytes) : Prop :=
  ∃ a b c d,Octet a ∧ Octet b ∧ Octet c ∧ Octet d ∧ s = a ++ 46 :: (b ++ 46 :: (c ++ 46 :: d))

inductive Dotted : Nat → Bytes → Prop where
  | last {group : Bytes} (octet : Octet group) : Dotted 0 group
  | more {group rest : Bytes} {dots : Nat} (octet : Octet group) (tail : Dotted dots rest) :
    Dotted (dots + 1) (group ++ 46 :: rest)

section grammar
variable {group rest s : Bytes} {dots : Nat}

theorem dottedQuad : Dotted 3 s ↔ DottedQuad s := by
  constructor
  · intro dotted
    cases dotted with | more a tail =>
    cases tail with | more b tail =>
    cases tail with | more c tail =>
    cases tail with | last d =>
    exact ⟨_,_,_,_,a,b,c,d,rfl⟩
  · rintro ⟨a,b,c,d,first,second,third,fourth,rfl⟩
    exact .more first (.more second (.more third (.last fourth)))

theorem noDot (digits : ∀ b ∈ group,isdigit b = true) : (46 : Byte) ∉ group := fun mem => absurd (digits 46 mem) (by decide)

theorem groupFirst (digits : ∀ b ∈ group,isdigit b = true) (rest : Bytes) :
    (group ++ 46 :: rest).takeWhile isdigit = group := by
  rw [List.takeWhile_append_of_pos digits]
  exact List.append_nil group

theorem dottedLast (digits : ∀ b ∈ group,isdigit b = true) : Dotted dots group ↔ dots = 0 ∧ Octet group := by
  constructor
  · intro dotted
    cases dotted with
    | last octet => exact ⟨rfl,octet⟩
    | more octet tail => exact absurd (List.mem_append_right _ List.mem_cons_self) (noDot digits)
  · rintro ⟨rfl,octet⟩
    exact .last octet

theorem dottedMore (digits : ∀ b ∈ group,isdigit b = true) :
    Dotted dots (group ++ 46 :: rest) ↔ Octet group ∧ ∃ fewer,dots = fewer + 1 ∧ Dotted fewer rest := by
  constructor
  · intro dotted
    generalize whole : group ++ 46 :: rest = s at dotted
    cases dotted with
    | last octet =>
      subst whole
      exact absurd (List.mem_append_right _ List.mem_cons_self) (noDot octet.digits)
    | @more first behind fewer octet tail =>
      have same : group = first := by
        have fronts := congrArg (List.takeWhile isdigit) whole
        rwa [groupFirst digits,groupFirst octet.digits] at fronts
      subst same
      cases List.append_cancel_left whole
      exact ⟨octet,fewer,rfl,tail⟩
  · rintro ⟨octet,fewer,rfl,tail⟩
    exact .more octet tail

theorem dottedBytes (dotted : Dotted dots s) : ∀ b ∈ s,isdigit b = true ∨ b = 46 := by
  induction dotted with
  | last octet => exact fun b mem => .inl (octet.digits b mem)
  | more octet tail ih =>
    intro b mem
    rcases List.mem_append.mp mem with front | dot | behind
    · exact .inl (octet.digits b front)
    · exact .inr rfl
    · exact ih b (by assumption)

theorem dottedFront (dotted : Dotted dots s) : (s.takeWhile isdigit).length ≤ 3 := by
  cases dotted with
  | last octet =>
    rw [List.takeWhile_eq_self_iff.mpr octet.digits]
    exact octet.few
  | more octet tail =>
    rw [groupFirst octet.digits]
    exact octet.few

theorem dottedWide (digits : ∀ b ∈ group,isdigit b = true) (wide : 3 < group.length) : ¬Dotted dots (group ++ rest) := by
  intro dotted
  have few := dottedFront dotted
  rw [List.takeWhile_append_of_pos digits,List.length_append] at few
  omega

theorem quadSize (quad : DottedQuad s) : 7 ≤ s.length ∧ s.length ≤ 15 := by
  obtain ⟨a,b,c,d,first,second,third,fourth,rfl⟩ := quad
  have := first.some_
  have := first.few
  have := second.some_
  have := second.few
  have := third.some_
  have := third.few
  have := fourth.some_
  have := fourth.few
  simp only [List.length_append,List.length_cons]
  omega

end grammar

def Tells (p : Prop) (answer : Int) : Prop := answer = 1 ∧ p ∨ answer = 0 ∧ ¬p

theorem tellsNot {p : Prop} (not_ : ¬p) : Tells p 0 := .inr ⟨rfl,not_⟩

def quadLimits : AddrLimits := ⟨15,7,3,1,3,0,255,4⟩

section scanner
variable {group : Bytes}

theorem groupRule (digits : ∀ b ∈ group,isdigit b = true) (few : group.length ≤ 3) :
    Meets (groupFits quadLimits group.length (filled 4 group)) fun fits => fits = true ↔ Octet group := by
  unfold groupFits
  split
  · rename_i outside
    rw [meetsOk]
    refine iff_of_false Bool.false_ne_true fun octet => ?_
    rcases outside with many | few
    · exact absurd octet.few (Nat.not_le.mpr many)
    · exact absurd octet.some_ (Nat.not_le.mpr few)
  · rename_i inside
    have some_ : 1 ≤ group.length := Nat.not_lt.mp (not_or.mp inside).2
    have closed : cstr (filled 4 (group ++ [0])) = group := filledClosed fun nul => absurd (digits 0 nul) (by decide)
    rw [pokeNext (by omega),if_pos (by omega),meetsBind,meetsOk,meetsPure,closed,atoiDigits digits,decide_eq_true_iff]
    simp only [quadLimits]
    constructor
    · rintro ⟨-,value⟩
      exact ⟨digits,some_,few,by omega⟩
    · intro octet
      have value := octet.value
      omega

theorem loopRule (rest : Bytes) {dotCnt : Nat} (dots : dotCnt ≤ 3) (digits : ∀ b ∈ group,isdigit b = true)
    (few : group.length ≤ 3) : Meets (addrLoop quadLimits dotCnt group.length (filled 4 group) rest)
      (Tells (Dotted (3 - dotCnt) (group ++ rest))) := by
  induction rest generalizing dotCnt group with
  | nil =>
    rw [addrLoop,List.append_nil,dottedLast digits]
    split
    · rename_i wrong
      rw [meetsOk]
      refine tellsNot fun dotted => wrong ?_
      change dotCnt = 3
      omega
    · rename_i all
      have all : dotCnt = 3 := not_not.mp all
      obtain ⟨fits,read,octet⟩ := groupRule digits few
      rw [read,meetsBind,meetsOk,meetsPure]
      cases fits with
      | false => exact tellsNot fun dotted => Bool.false_ne_true (octet.mpr dotted.2)
      | true => exact .inl ⟨rfl,by omega,octet.mp rfl⟩
  | cons b rest ih =>
    rw [addrLoop]
    split
    · rename_i dot
      subst dot
      obtain ⟨fits,read,octet⟩ := groupRule digits few
      rw [read,meetsBind,meetsOk,dottedMore digits]
      cases fits with
      | false => exact (meetsPure _).mpr (tellsNot fun dotted => Bool.false_ne_true (octet.mpr dotted.1))
      | true =>
        rw [if_pos rfl]
        split
        · rename_i many
          have many : 3 < dotCnt + 1 := many
          refine (meetsPure _).mpr (tellsNot ?_)
          rintro ⟨-,fewer,wrong,-⟩
          omega
        · rename_i more
          have more : ¬3 < dotCnt + 1 := more
          have behind : (Octet group ∧ ∃ fewer,3 - dotCnt = fewer + 1 ∧ Dotted fewer rest) ↔ Dotted (3 - (dotCnt + 1)) rest := by
            constructor
            · rintro ⟨-,fewer,left,tail⟩
              rwa [show 3 - (dotCnt + 1) = fewer by omega]
            · intro tail
              exact ⟨octet.mp rfl,3 - (dotCnt + 1),by omega,tail⟩
          rw [behind]
          exact @ih [] (dotCnt + 1) (by omega) (by simp) (by simp)
    · rename_i dot
      split
      · rename_i other
        rw [meetsOk]
        refine tellsNot fun dotted => ?_
        rcases dottedBytes dotted b (by simp) with digit | same
        · exact absurd digit (by simp [other])
        · exact dot same
      · rename_i digit
        have longer : ∀ c ∈ group ++ [b],isdigit c = true := by
          intro c mem
          rcases List.mem_append.mp mem with front | last
          · exact digits c front
          · rw [List.mem_singleton.mp last]
            exact Bool.not_eq_false _ ▸ digit
        rw [show group ++ b :: rest = group ++ [b] ++ rest by simp]
        split
        · rename_i full
          have full : 3 ≤ group.length := full
          rw [meetsOk]
          refine tellsNot (dottedWide longer ?_)
          rw [List.length_append,List.length_singleton]
          omega
        · rename_i room
          have room : ¬3 ≤ group.length := room
          rw [pokeNext (by omega),if_pos (by omega),meetsBind,meetsOk]
          have next := ih dots longer (by rw [List.length_append,List.length_singleton]; omega)
          rwa [List.length_append,List.length_singleton] at next

end scanner

theorem hostAddr (host : Bytes) : hostIsIpAddr (some host) = getfileHostIsIpAddr (some host) ∧
    Meets (hostIsIpAddr (some host)) (Tells (DottedQuad (cstr host))) := by
  have first : hostIsIpAddr = isIpAddr quadLimits := rfl
  have second : getfileHostIsIpAddr = isIpAddr quadLimits := rfl
  rw [first,second]
  refine ⟨rfl,?_⟩
  rw [isIpAddr]
  split
  · rename_i outside
    rw [meetsOk]
    refine tellsNot fun quad => ?_
    have size := quadSize quad
    have outside : 15 < (cstr host).length ∨ (cstr host).length < 7 := outside
    omega
  · rw [← dottedQuad]
    exact @loopRule [] (cstr host) 0 (by omega) (by simp) (by simp)

end MipsElfExec.SnoopClient

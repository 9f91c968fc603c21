import MipsElfExec.Lib.Image

/-! The object file of the symbol stubs, a variable per symbol with the address for its value: each such variable is made
an absolute symbol with that address. The file is in memory, and every access has to lie in it. -/
namespace MipsElfExec.Tools
open CString Access

def ehdrSize : Nat := 52
def eShoff : Nat := 32
def eShnum : Nat := 48

def shdrSize : Nat := 40
def shType : Nat := 4
def shOffset : Nat := 16
def shLink : Nat := 24
def shSize : Nat := 20

def symSize : Nat := 16
def stName : Nat := 0
def stValue : Nat := 4
def stSize : Nat := 8
def stInfo : Nat := 12
def stShndx : Nat := 14

def shtSymtab : Nat := 2
def shtNobits : Nat := 8
def sttObject : Nat := 1
def stbGlobal : Nat := 1

def shnAbs : Bytes := [0xff,0xf1]

def elf32StBind (val : Nat) : Nat := val >>> 4
def elf32StType (val : Nat) : Nat := val &&& 0xf

-- "%.31s" looks at no byte behind the NUL.
def readName : Nat → Bytes → Checked Bytes
  | 0,_ => .ok []
  | _ + 1,[] => .error .read
  | left + 1,b :: cur => if b = 0 then .ok [] else (fun name => b :: name) <$> readName left cur

def convertSym (shdrTab strings sym : Nat) (elf : Bytes) : Checked Bytes := do
  let info ← loadBe elf (sym + stInfo) 1
  if elf32StType info = sttObject ∧ elf32StBind info = stbGlobal then
    if (← loadBe elf (sym + stValue) 4) = 0 then
      let shndx ← loadBe elf (sym + stShndx) 2
      let addr ← load elf (← loadBe elf (shdrTab + shdrSize * shndx + shOffset) 4) 4
      let name ← loadBe elf (sym + stName) 4
      let _ ← readName 31 (elf.drop (strings + name))
      let elf ← blit elf (sym + stValue) addr
      let elf ← blit elf (sym + stShndx) shnAbs
      blit elf (sym + stSize) [0,0,0,0]
    else return elf
  else return elf

-- The size of the table is read again for each symbol. It has 32 bits.
def convertLoop (shdrTab shdrSym syms strings : Nat) : Nat → Nat → Bytes → Checked Bytes
  | 0,_,_ => .error .endless
  | more + 1,i,elf => do
    if i < (← loadBe elf (shdrSym + shSize) 4) / symSize then
      convertLoop shdrTab shdrSym syms strings more (i + 1) (← convertSym shdrTab strings (syms + symSize * i) elf)
    else return elf

def convertObjectDo (shdrSym syms strings : Nat) (elf : Bytes) : Checked (Bytes × Int) := do
  let shdrTab ← loadBe elf eShoff 4
  let elf ← convertLoop shdrTab shdrSym syms strings (2 ^ 28) 0 elf
  return (elf,0)

def symtabLoop (elf : Bytes) (shdr : Nat) : Nat → Nat → Checked (Option Nat)
  | 0,_ => return none
  | left + 1,i => do
    if (← loadBe elf (shdr + shdrSize * i + shType) 4) = shtSymtab then return some i
    else symtabLoop elf shdr left (i + 1)

def isImageValid (_ : Bytes) : Bool := true

def convertObject (elf : Bytes) : Checked (Bytes × Int) := do
  if isImageValid elf = false then return (elf,-1)
  else
    let shdr ← loadBe elf eShoff 4
    match ← symtabLoop elf shdr (← loadBe elf eShnum 2) 0 with
    | none => return (elf,-1)
    | some i =>
      let syms ← loadBe elf (shdr + shdrSize * i + shOffset) 4
      let link ← loadBe elf (shdr + shdrSize * i + shLink) 4
      let strings ← loadBe elf (shdr + shdrSize * link + shOffset) 4
      convertObjectDo (shdr + shdrSize * i) syms strings elf

section fields
variable (file : Bytes) (t s k : Nat)

def shnum : Nat := beValue (part file eShnum 2)

def shdrAt : Nat := beValue (part file eShoff 4) + shdrSize * s

def sectionField (field : Nat) : Nat := beValue (part file (shdrAt file s + field) 4)

def symAt : Nat := sectionField file t shOffset + symSize * k

def symCount : Nat := sectionField file t shSize / symSize

def symField (field n : Nat) : Nat := beValue (part file (symAt file t k + field) n)

def Stub : Prop := elf32StType (symField file t k stInfo 1) = sttObject ∧
  elf32StBind (symField file t k stInfo 1) = stbGlobal ∧ symField file t k stValue 4 = 0

instance : Decidable (Stub file t k) := by unfold Stub; infer_instance

def stubSection : Nat := symField file t k stShndx 2

def initialiser : Bytes := part file (sectionField file (stubSection file t k) shOffset) 4

def absolute : Bytes := part file (symAt file t k) 4 ++ initialiser file t k ++ [0,0,0,0] ++ part file (symAt file t k + stInfo) 2 ++ shnAbs

def Ordinary : Prop := s ≠ 0 ∧ s < shnum file ∧ sectionField file s shType ≠ shtNobits ∧ 4 ≤ sectionField file s shSize

def converted : Bytes := if Stub file t k then absolute file t k else part file (symAt file t k) symSize

def Clear (off n : Nat) : Prop := off + n ≤ sectionField file t shOffset ∨
  sectionField file t shOffset + sectionField file t shSize ≤ off

instance (off n : Nat) : Decidable (Clear file t off n) := by unfold Clear; infer_instance

end fields

-- An object file whose symbol table shares no byte with the header, the section headers or the strings. The section that a variable
-- names has as many bytes in the file as an address, and not in the table either.
structure Object (file : Bytes) (t : Nat) : Prop where
  header : ehdrSize ≤ file.length ∧ Clear file t 0 ehdrSize
  table : shdrAt file (shnum file) ≤ file.length ∧ Clear file t (shdrAt file 0) (shdrSize * shnum file)
  first : t < shnum file ∧ sectionField file t shType = shtSymtab ∧ ∀ s < t,sectionField file s shType ≠ shtSymtab
  symbols : sectionField file t shOffset + sectionField file t shSize ≤ file.length
  link : sectionField file t shLink < shnum file
  strings : let strtab := sectionField file t shLink
    sectionField file strtab shOffset + sectionField file strtab shSize ≤ file.length ∧
    Clear file t (sectionField file strtab shOffset) (sectionField file strtab shSize) ∧
    (part file (sectionField file strtab shOffset) (sectionField file strtab shSize)).getLast? = some 0
  names : ∀ k < symCount file t,symField file t k stName 4 < sectionField file (sectionField file t shLink) shSize
  held : ∀ k < symCount file t,Stub file t k → stubSection file t k < shnum file ∧
    sectionField file (stubSection file t k) shOffset + 4 ≤ file.length ∧
    Clear file t (sectionField file (stubSection file t k) shOffset) 4

structure Converted (file : Bytes) (t : Nat) (out : Bytes) : Prop where
  table : Agree file out (symAt file t 0) (symAt file t (symCount file t))
  stubs : ∀ k < symCount file t,Stub file t k → Ordinary file (stubSection file t k) →
    part out (symAt file t k) symSize = absolute file t k
  others : ∀ k < symCount file t,¬Stub file t k → part out (symAt file t k) symSize = part file (symAt file t k) symSize

section stores
variable {elf addr cur : Bytes} {sym : Nat}

theorem nameRead (nul : (0 : Byte) ∈ cur) (len : Nat) : ∃ name,readName len cur = .ok name := by
  induction len generalizing cur with
  | zero => exact ⟨[],by cases cur <;> rfl⟩
  | succ left ih =>
    cases cur with
    | nil => cases nul
    | cons b cur =>
      by_cases last : b = 0
      · exact ⟨[],by rw [readName,if_pos last]⟩
      · obtain ⟨name,run⟩ := ih ((List.mem_cons.mp nul).resolve_left (Ne.symm last))
        exact ⟨b :: name,by rw [readName,if_neg last,run]; rfl⟩

theorem storesRun (inside : sym + symSize ≤ elf.length) (size : addr.length = 4) : ∃ out,
    (do
      let elf ← blit elf (sym + stValue) addr
      let elf ← blit elf (sym + stShndx) shnAbs
      blit elf (sym + stSize) [0,0,0,0]) = .ok out ∧ Agree elf out sym (sym + symSize) ∧
      part out sym symSize = part elf sym 4 ++ addr ++ [0,0,0,0] ++ part elf (sym + stInfo) 2 ++ shnAbs := by
  simp only [symSize,stValue,stShndx,stSize,stInfo] at inside ⊢
  obtain ⟨first,run,agree,value⟩ := blitInside size (show sym + 4 + 4 ≤ elf.length by omega)
  obtain ⟨second,run',agree',shndx⟩ := blitInside (show shnAbs.length = 2 from rfl)
    (show sym + 14 + 2 ≤ first.length by rw [agree.size]; omega)
  obtain ⟨third,run'',agree'',zeros⟩ := blitInside (show ([0,0,0,0] : Bytes).length = 4 from rfl)
    (show sym + 8 + 4 ≤ second.length by rw [agree'.size,agree.size]; omega)
  refine ⟨third,by rw [run]; change (blit first _ _ >>= _) = _; rw [run']; exact run'',?_,?_⟩
  · have a : Agree elf first sym (sym + 16) := agreeWiden agree (by omega) (by omega)
    have b : Agree first second sym (sym + 16) := agreeWiden agree' (by omega) (by omega)
    exact agreeTrans a (agreeTrans b (agreeWiden agree'' (by omega) (by omega)))
  · rw [partSplit third sym 14 2,partSplit third sym 12 2,partSplit third sym 8 4,partSplit third sym 4 4,zeros]
    rw [partAgree agree'' (p := sym) (by omega),partAgree agree' (p := sym) (by omega),partAgree agree (p := sym) (by omega)]
    rw [partAgree agree'' (p := sym + 4) (by omega),partAgree agree' (p := sym + 4) (by omega),value]
    rw [partAgree agree'' (p := sym + 12) (by omega),partAgree agree' (p := sym + 12) (by omega),
      partAgree agree (p := sym + 12) (by omega)]
    rw [partAgree agree'' (p := sym + 14) (by omega),shndx]

end stores

section runs
variable {file elf : Bytes} {t k p n : Nat}

theorem symNext (file : Bytes) (t k : Nat) : symAt file t (k + 1) = symAt file t k + symSize := by
  rw [symAt,symAt,Nat.mul_add,Nat.mul_one,Nat.add_assoc]

theorem symInside (inside : k < symCount file t) : symAt file t k + symSize ≤
    sectionField file t shOffset + sectionField file t shSize := by
  have whole : symSize * (k + 1) ≤ sectionField file t shSize := Nat.mul_le_of_le_div _ _ _ inside |>.trans_eq' (Nat.mul_comm _ _)
  rw [← symNext,symAt]
  omega

theorem clearApart (clear : Clear file t p n) (inside : k ≤ symCount file t) :
    p + n ≤ symAt file t 0 ∨ symAt file t k ≤ p := by
  have count : symSize * k ≤ sectionField file t shSize := by
    have whole := Nat.mul_le_mul_left symSize inside
    have all := Nat.mul_div_le (sectionField file t shSize) symSize
    exact whole.trans all
  unfold symAt
  rw [Nat.mul_zero]
  rcases clear with before | behind <;> omega

theorem clearLoad (agree : Agree file elf (symAt file t 0) (symAt file t k)) (count : k ≤ symCount file t)
    (clear : Clear file t p n) (inside : p + n ≤ file.length) : loadBe elf p n = .ok (beValue (part file p n)) :=
  loadAgree agree (clearApart clear count) inside

theorem headClear (object : Object file t) (inside : p + n ≤ ehdrSize) : Clear file t p n := by
  rcases object.header.2 with before | behind
  · exact .inl (by omega)
  · exact .inr (by omega)

theorem headLoad (object : Object file t) (agree : Agree file elf (symAt file t 0) (symAt file t k)) (count : k ≤ symCount file t)
    (inside : p + n ≤ ehdrSize) : loadBe elf p n = .ok (beValue (part file p n)) :=
  clearLoad agree count (headClear object inside) (inside.trans object.header.1)

theorem sectionClear (object : Object file t) {s field : Nat} (known : s < shnum file) (inside : field + 4 ≤ shdrSize) :
    Clear file t (shdrAt file s + field) 4 ∧ shdrAt file s + field + 4 ≤ file.length := by
  have room : shdrSize * (s + 1) ≤ shdrSize * shnum file := Nat.mul_le_mul_left shdrSize known
  have table := object.table.1
  rw [Nat.mul_add,Nat.mul_one] at room
  refine ⟨?_,by unfold shdrAt at table ⊢; omega⟩
  rcases object.table.2 with before | behind
  · exact .inl (by unfold shdrAt at before ⊢; omega)
  · exact .inr (by unfold shdrAt at behind ⊢; omega)

theorem sectionLoad (object : Object file t) (agree : Agree file elf (symAt file t 0) (symAt file t k)) (count : k ≤ symCount file t)
    {s : Nat} (known : s < shnum file) (field : Nat) (inside : field + 4 ≤ shdrSize) :
    loadBe elf (shdrAt file 0 + shdrSize * s + field) 4 = .ok (sectionField file s field) := by
  have place : shdrAt file 0 + shdrSize * s = shdrAt file s := by simp [shdrAt]
  obtain ⟨clear,room⟩ := sectionClear object known inside
  rw [place]
  exact clearLoad agree count clear room

theorem symLoad (object : Object file t) (agree : Agree file elf (symAt file t 0) (symAt file t k)) (count : k < symCount file t)
    (field : Nat) (inside : field + n ≤ symSize) : loadBe elf (symAt file t k + field) n = .ok (symField file t k field n) := by
  have whole := symInside count
  have bound := object.symbols
  exact loadAgree agree (.inr (by omega)) (by omega)

theorem nameLoad (object : Object file t) (agree : Agree file elf (symAt file t 0) (symAt file t k)) (count : k < symCount file t) :
    ∃ name,readName 31 (elf.drop (sectionField file (sectionField file t shLink) shOffset + symField file t k stName 4)) = .ok name := by
  obtain ⟨inside,clear,last⟩ := object.strings
  have short := object.names k count
  rw [List.getLast?_eq_getElem?,partLength inside,partAt,if_pos (by omega)] at last
  have apart := clearApart clear count.le
  rw [← agree.same _ (by omega)] at last
  refine nameRead (List.mem_of_getElem? (i := sectionField file (sectionField file t shLink) shSize - 1 - symField file t k stName 4) ?_) 31
  rw [List.getElem?_drop,← last]
  congr 1
  omega

theorem stepConverted (object : Object file t) (agree : Agree file elf (symAt file t 0) (symAt file t k)) (count : k < symCount file t) :
    ∃ out,convertSym (shdrAt file 0) (sectionField file (sectionField file t shLink) shOffset) (symAt file t k) elf = .ok out ∧
      Agree elf out (symAt file t k) (symAt file t (k + 1)) ∧ part out (symAt file t k) symSize = converted file t k := by
  have whole := symInside count
  have bound := object.symbols
  have keep {m : Nat} (field : Nat) (inside : field + m ≤ symSize) :
      part elf (symAt file t k + field) m = part file (symAt file t k + field) m := partAgree agree (.inr (by omega))
  have value := symLoad object agree count stValue (n := 4) (by decide)
  unfold convertSym
  rw [symLoad object agree count stInfo (n := 1) (by decide)]
  by_cases stub : Stub file t k
  · obtain ⟨known,inside,clear⟩ := object.held k count stub
    obtain ⟨name,named⟩ := nameLoad object agree count
    have shndx := symLoad object agree count stShndx (n := 2) (by decide)
    have offset := sectionLoad object agree count.le known shOffset (by decide)
    have addr : load elf (sectionField file (stubSection file t k) shOffset) 4 = .ok (initialiser file t k) := by
      rw [loadInside (by rw [agree.size]; exact inside),partAgree agree (clearApart clear count.le)]
      rfl
    have nameAt := symLoad object agree count stName (n := 4) (by decide)
    obtain ⟨out,run,changed,entry⟩ := storesRun (show symAt file t k + symSize ≤ elf.length by rw [agree.size]; omega)
      (partLength inside : (initialiser file t k).length = 4)
    rw [symNext]
    refine ⟨out,?_,changed,?_⟩
    · change (if _ then _ else _) = _
      rw [if_pos ⟨stub.1,stub.2.1⟩,value]
      change (if _ then _ else _) = _
      rw [if_pos stub.2.2,shndx]
      change (loadBe elf (shdrAt file 0 + shdrSize * stubSection file t k + shOffset) 4 >>= _) = _
      rw [offset]
      change (load _ _ _ >>= _) = _
      rw [addr]
      change (loadBe _ _ _ >>= _) = _
      rw [nameAt]
      change (readName _ _ >>= _) = _
      rw [named]
      exact run
    · have front := keep (m := 4) 0 (by decide)
      rw [Nat.add_zero] at front
      rw [entry,front,keep (m := 2) stInfo (by decide),converted,if_pos stub]
      rfl
  · have same := keep (m := symSize) 0 (by decide)
    rw [Nat.add_zero] at same
    refine ⟨elf,?_,agreeRefl _ _ _,by rw [same,converted,if_neg stub]⟩
    change (if _ then _ else _) = _
    by_cases kind : elf32StType (symField file t k stInfo 1) = sttObject ∧ elf32StBind (symField file t k stInfo 1) = stbGlobal
    · rw [if_pos kind,value]
      change (if _ then _ else _) = _
      rw [if_neg fun zero => stub ⟨kind.1,kind.2,zero⟩]
      rfl
    · rw [if_neg kind]
      rfl

def Done (file : Bytes) (t i : Nat) (elf : Bytes) : Prop := Agree file elf (symAt file t 0) (symAt file t i) ∧
  ∀ k < i,part elf (symAt file t k) symSize = converted file t k

theorem stepDone (object : Object file t) (done : Done file t k elf) (count : k < symCount file t) :
    ∃ out,convertSym (shdrAt file 0) (sectionField file (sectionField file t shLink) shOffset) (symAt file t k) elf = .ok out ∧
      Done file t (k + 1) out := by
  obtain ⟨out,run,changed,entry⟩ := stepConverted object done.1 count
  have next := symNext file t k
  have first : symAt file t 0 ≤ symAt file t k := by simp [symAt]
  refine ⟨out,run,?_,fun j before => ?_⟩
  · exact agreeTrans (agreeWiden done.1 le_rfl (by omega)) (agreeWiden changed first le_rfl)
  · rcases Nat.lt_succ_iff_lt_or_eq.mp before with earlier | rfl
    · have apart : symAt file t j + symSize ≤ symAt file t k := by
        rw [← symNext]
        exact Nat.add_le_add_left (Nat.mul_le_mul_left symSize earlier) _
      rw [partAgree changed (.inl apart)]
      exact done.2 j earlier
    · exact entry

theorem loopDone (more : Nat) (object : Object file t) (done : Done file t k elf) (count : k ≤ symCount file t)
    (enough : symCount file t < k + more) : ∃ out,
    convertLoop (shdrAt file 0) (shdrAt file t) (sectionField file t shOffset) (sectionField file (sectionField file t shLink) shOffset)
      more k elf = .ok out ∧ Done file t (symCount file t) out := by
  induction more generalizing k elf with
  | zero => omega
  | succ more ih =>
    have size := sectionLoad object done.1 count object.first.1 shSize (by decide)
    have place : shdrAt file 0 + shdrSize * t = shdrAt file t := by simp [shdrAt]
    rw [place] at size
    rw [convertLoop,size]
    by_cases inside : k < symCount file t
    · obtain ⟨next,run,after⟩ := stepDone object done inside
      obtain ⟨out,rest,all⟩ := ih after inside (by omega)
      refine ⟨out,?_,all⟩
      change (if k < symCount file t then convertSym _ _ (symAt file t k) _ >>= _ else _) = _
      rw [if_pos inside,run]
      exact rest
    · have last : k = symCount file t := by omega
      refine ⟨elf,?_,last ▸ done⟩
      change (if k < symCount file t then _ else _) = _
      rw [if_neg inside]
      rfl

theorem startDone (file : Bytes) (t : Nat) : Done file t 0 file := ⟨agreeRefl _ _ _,fun _ before => nomatch before⟩

theorem symtabFound (left : Nat) (object : Object file t) {i : Nat} (before : i ≤ t) (enough : t < i + left) (inside : i + left ≤ shnum file) :
    symtabLoop file (shdrAt file 0) left i = .ok (some t) := by
  induction left generalizing i with
  | zero => omega
  | succ left ih =>
    have type := sectionLoad object (agreeRefl file _ (symAt file t 0)) (Nat.zero_le _) (s := i) (by omega) shType (by decide)
    rw [symtabLoop,type]
    change (if _ then _ else _) = _
    rcases Nat.lt_or_eq_of_le before with earlier | rfl
    · rw [if_neg (object.first.2.2 i earlier)]
      exact ih earlier (by omega) (by omega)
    · rw [if_pos object.first.2.1]
      rfl

theorem convertRun (object : Object file t) : ∃ out,convertObject file = .ok (out,0) ∧ Done file t (symCount file t) out := by
  have start := startDone file t
  have shdr := headLoad object start.1 (Nat.zero_le _) (p := eShoff) (n := 4) (by decide)
  have shnum_ := headLoad object start.1 (Nat.zero_le _) (p := eShnum) (n := 2) (by decide)
  have found := symtabFound (shnum file) object (Nat.zero_le t) (by rw [Nat.zero_add]; exact object.first.1) (by omega)
  have read {s : Nat} (known : s < shnum file) (field : Nat) (inside : field + 4 ≤ shdrSize) :=
    sectionLoad object start.1 (Nat.zero_le _) known field inside
  have few : symCount file t < 2 ^ 28 := by
    have bound : sectionField file t shSize < 256 ^ 4 := partBound _ _ _
    simp only [symCount,symSize]
    omega
  obtain ⟨out,run,all⟩ := loopDone (2 ^ 28) object start (Nat.zero_le _) (by omega)
  have place : shdrAt file 0 + shdrSize * t = shdrAt file t := by simp [shdrAt]
  refine ⟨out,?_,all⟩
  unfold convertObject
  rw [if_neg (by simp [isImageValid]),shdr]
  change (loadBe _ _ _ >>= _) = _
  rw [shnum_]
  change (symtabLoop file (shdrAt file 0) (shnum file) 0 >>= _) = _
  rw [found]
  change (loadBe file (shdrAt file 0 + shdrSize * t + shOffset) 4 >>= _) = _
  rw [read object.first.1 _ (by decide)]
  change (loadBe file (shdrAt file 0 + shdrSize * t + shLink) 4 >>= _) = _
  rw [read object.first.1 _ (by decide)]
  change (loadBe file (shdrAt file 0 + shdrSize * sectionField file t shLink + shOffset) 4 >>= _) = _
  rw [read object.link _ (by decide)]
  change convertObjectDo (shdrAt file 0 + shdrSize * t) _ _ _ = _
  rw [place,convertObjectDo,shdr]
  change (convertLoop (shdrAt file 0) _ _ _ _ _ _ >>= _) = _
  rw [run]
  rfl

end runs

section again
variable {file out : Bytes} {t k : Nat}

theorem headersKept (object : Object file t) (done : Done file t (symCount file t) out) : shnum out = shnum file ∧
    (∀ s,shdrAt out s = shdrAt file s) ∧
    ∀ s < shnum file,∀ field,field + 4 ≤ shdrSize → sectionField out s field = sectionField file s field := by
  have kept {off n : Nat} (clear : Clear file t off n) : part out off n = part file off n := partAgree done.1 (clearApart clear le_rfl)
  have place (s : Nat) : shdrAt out s = shdrAt file s := by
    rw [shdrAt,shdrAt,kept (headClear object (by decide))]
  refine ⟨by rw [shnum,shnum,kept (headClear object (by decide))],place,fun s known field inside => ?_⟩
  rw [sectionField,sectionField,place,kept (sectionClear object known inside).1]

theorem tableKept (object : Object file t) (done : Done file t (symCount file t) out) :
    (∀ k,symAt out t k = symAt file t k) ∧ symCount out t = symCount file t ∧
      ∀ off n,Clear out t off n ↔ Clear file t off n := by
  obtain ⟨-,-,fields⟩ := headersKept object done
  have offset := fields t object.first.1 shOffset (by decide)
  have size := fields t object.first.1 shSize (by decide)
  refine ⟨fun k => by rw [symAt,symAt,offset],by rw [symCount,symCount,size],fun off n => ?_⟩
  rw [Clear,Clear,offset,size]

theorem noStub (object : Object file t) (done : Done file t (symCount file t) out)
    (some_ : ∀ k < symCount file t,Stub file t k → beValue (initialiser file t k) ≠ 0) (count : k < symCount file t) :
    ¬Stub out t k ∧ symField out t k stName 4 = symField file t k stName 4 := by
  have entry := done.2 k count
  have place := (tableKept object done).1 k
  have field (image : Bytes) (at_ : Nat) (m : Nat) (inside : at_ + m ≤ symSize) :
      part image (symAt file t k + at_) m = part (part image (symAt file t k) symSize) at_ m := (partPart inside _).symm
  by_cases stub : Stub file t k
  · obtain ⟨-,room,-⟩ := object.held k count stub
    have whole := symInside count
    have bound := object.symbols
    have name : (part file (symAt file t k) 4).length = 4 := partLength (by simp only [symSize] at whole; omega)
    have addr : (initialiser file t k).length = 4 := partLength room
    rw [converted,if_pos stub,absolute,List.append_assoc,List.append_assoc,List.append_assoc] at entry
    constructor
    · rintro ⟨-,-,zero⟩
      refine some_ k count stub ?_
      rw [symField,place,field out stValue 4 (by decide),entry,part,stValue,List.drop_left' name,List.take_left' addr] at zero
      exact zero
    · have first := field out stName 4 (by decide)
      rw [symField,symField,place,first,entry,part,stName,List.drop_zero,List.take_left' name,Nat.add_zero]
  · rw [converted,if_neg stub] at entry
    have same (at_ m : Nat) (inside : at_ + m ≤ symSize) : symField out t k at_ m = symField file t k at_ m := by
      rw [symField,symField,place,field out at_ m inside,entry,← field file at_ m inside]
    refine ⟨fun again => stub ?_,same stName 4 (by decide)⟩
    unfold Stub at again ⊢
    rwa [same stInfo 1 (by decide),same stValue 4 (by decide)] at again

theorem objectKept (object : Object file t) (done : Done file t (symCount file t) out)
    (some_ : ∀ k < symCount file t,Stub file t k → beValue (initialiser file t k) ≠ 0) : Object out t := by
  obtain ⟨number,shdrs,fields⟩ := headersKept object done
  obtain ⟨places,count,clear⟩ := tableKept object done
  have size := done.1.size
  have own (field : Nat) (inside : field + 4 ≤ shdrSize) := fields t object.first.1 field inside
  have strtab (field : Nat) (inside : field + 4 ≤ shdrSize) := fields _ object.link field inside
  constructor
  · rw [size,clear]
    exact object.header
  · rw [size,clear,number,shdrs,shdrs]
    exact object.table
  · rw [number,own _ (by decide)]
    refine ⟨object.first.1,object.first.2.1,fun s before => ?_⟩
    rw [fields s (before.trans object.first.1) shType (by decide)]
    exact object.first.2.2 s before
  · rw [size,own _ (by decide),own _ (by decide)]
    exact object.symbols
  · rw [number,own _ (by decide)]
    exact object.link
  · obtain ⟨inside,apart,last⟩ := object.strings
    simp only [own shLink (by decide),strtab shOffset (by decide),strtab shSize (by decide),size,clear]
    rw [partAgree done.1 (clearApart apart le_rfl)]
    exact ⟨inside,apart,last⟩
  · intro k less
    rw [count] at less
    rw [(noStub object done some_ less).2,own _ (by decide),strtab _ (by decide)]
    exact object.names k less
  · intro k less stub
    rw [count] at less
    exact absurd stub (noStub object done some_ less).1

theorem rerun (object : Object file t) (done : Done file t (symCount file t) out)
    (some_ : ∀ k < symCount file t,Stub file t k → beValue (initialiser file t k) ≠ 0) : convertObject out = .ok (out,0) := by
  obtain ⟨again,run,agree,entries⟩ := convertRun (objectKept object done some_)
  obtain ⟨-,count,-⟩ := tableKept object done
  have same : again = out := by
    refine agreeParts (by decide : 0 < symSize) agree fun k less => ?_
    have entry := entries k less
    rw [count] at less
    rw [converted,if_neg (noStub object done some_ less).1] at entry
    exact entry
  rw [run,same]

end again

theorem stubsAbsolute {file : Bytes} {t : Nat} (object : Object file t) : Meets (convertObject file) fun out =>
    out.2 = 0 ∧ Converted file t out.1 ∧
      ((∀ k < symCount file t,Stub file t k → beValue (initialiser file t k) ≠ 0) → convertObject out.1 = .ok out) := by
  obtain ⟨out,run,done⟩ := convertRun object
  refine ⟨(out,0),run,rfl,⟨done.1,fun k count stub _ => ?_,fun k count other => ?_⟩,rerun object done⟩
  · rw [done.2 k count,converted,if_pos stub]
  · rw [done.2 k count,converted,if_neg other]

def word (n : Nat) : Bytes := [24,16,8,0].map fun shift => UInt8.ofNat (n >>> shift)
def half (n : Nat) : Bytes := [8,0].map fun shift => UInt8.ofNat (n >>> shift)

def ehdr (shoff shnum : Nat) : Bytes := [0x7f,69,76,70,1,2,1] ++ List.replicate 9 0 ++ half 1 ++ half 8 ++ word 1 ++ word 0 ++ word 0 ++
  word shoff ++ word 0 ++ half 52 ++ half 0 ++ half 0 ++ half 40 ++ half shnum ++ half 3

def shdrOf (type off size link : Nat) : Bytes := word 0 ++ word type ++ word 0 ++ word 0 ++ word off ++ word size ++ word link ++
  word 0 ++ word 4 ++ word 0

def symOf (name value size info shndx : Nat) : Bytes := word name ++ word value ++ word size ++ [UInt8.ofNat info,0] ++ half shndx

def objectOf (data : Bytes) (first second : Bytes) : Bytes := ehdr 120 4 ++ data ++ symOf 0 0 0 0 0 ++ first ++ second ++
  ascii "\x00foo\x00bar\x00" ++ [0,0,0] ++ shdrOf 0 0 0 0 ++ shdrOf 1 52 8 0 ++ shdrOf 2 60 48 3 ++ shdrOf 3 108 9 0

def stubFile : Bytes := objectOf (word 0x80001000 ++ word 0) (symOf 1 0 4 0x11 1) (symOf 5 0 0 0x10 0)

theorem stubFileAbsolute : Meets (convertObject stubFile) fun out => out.2 = 0 ∧ Converted stubFile 2 out.1 ∧
    ((∀ k < symCount stubFile 2,Stub stubFile 2 k → beValue (initialiser stubFile 2 k) ≠ 0) → convertObject out.1 = .ok out) := by
  refine stubsAbsolute ?_
  constructor <;> decide +kernel

def pairFile : Bytes := objectOf (word 0x80001000 ++ word 0x80002000) (symOf 1 0 4 0x11 1) (symOf 5 4 4 0x11 1)
def elsewhereFile : Bytes := objectOf (word 0x80001000 ++ word 0) (symOf 1 0 4 0x11 0) (symOf 5 0 0 0x10 0)
def zeroFile : Bytes := objectOf (word 0 ++ word 0) (symOf 1 0 4 0x11 1) (symOf 5 0 0 0x10 0)

theorem pairKept :
    (¬Meets (convertObject pairFile) fun out => symField out.1 2 2 stValue 4 = 0x80002000 ∧ symField out.1 2 2 stShndx 2 = 0xfff1) ∧
    (¬Meets (convertObject elsewhereFile) fun out => symField out.1 2 1 stShndx 2 = 0) ∧
    Meets (convertObject zeroFile) fun out => convertObject out.1 = .error .read := by
  have pair : (convertObject pairFile).map (fun out => symField out.1 2 2 stShndx 2) = .ok 1 := by decide +kernel
  have elsewhere : (convertObject elsewhereFile).map (fun out => symField out.1 2 1 stShndx 2) = .ok 0xfff1 := by decide +kernel
  have zero : (convertObject zeroFile).map (fun out => decide (convertObject out.1 = .error .read)) = .ok true := by decide +kernel
  refine ⟨?_,?_,?_⟩
  · rintro ⟨out,run,-,absolute⟩
    rw [run] at pair
    cases absolute.symm.trans (Except.ok.inj pair)
  · rintro ⟨out,run,undefined⟩
    rw [run] at elsewhere
    cases undefined.symm.trans (Except.ok.inj elsewhere)
  · cases run : convertObject zeroFile with
    | error fault =>
      rw [run] at zero
      cases zero
    | ok out =>
      rw [run] at zero
      exact (meetsOk out).mpr (of_decide_eq_true (Except.ok.inj zero))

end MipsElfExec.Tools

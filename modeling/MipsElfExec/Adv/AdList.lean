import MipsElfExec.Lib.Checked
import MipsElfExec.Lib.Numeral

/-! The list of advertisements that a file tells, an item per line. The file is read byte by byte; an item is stored when
the next one begins or the file ends, in the list of its length. -/
namespace MipsElfExec.Adv
open CString Access

def adUrlLen : Nat := 64
def adTypeLen : Nat := 8
def adListLen : Nat := 10

@[ext] structure AdvItem where
  adUrl : Bytes
  adType : Bytes
  adLen : Byte
  sized : adUrl.length = adUrlLen ∧ adType.length = adTypeLen
  deriving DecidableEq, Repr

def AdvItem.zero : AdvItem := ⟨List.replicate adUrlLen 0,List.replicate adTypeLen 0,0,by simp⟩

def AdvItem.pokeUrl (item : AdvItem) (offset : Nat) (c : Byte) : Checked AdvItem :=
  if offset < adUrlLen then
    .ok { item with adUrl := item.adUrl.set offset c,sized := by rw [List.length_set]; exact item.sized }
  else .error .write

def AdvItem.pokeType (item : AdvItem) (offset : Nat) (c : Byte) : Checked AdvItem :=
  if offset < adTypeLen then
    .ok { item with adType := item.adType.set offset c,sized := by rw [List.length_set]; exact item.sized }
  else .error .write

structure AdvLists where
  list5s : List AdvItem := []
  list15s : List AdvItem := []
  list30s : List AdvItem := []
  deriving DecidableEq, Repr

def push (list : List AdvItem) (item : AdvItem) : Checked (List AdvItem) :=
  if list.length < adListLen then .ok (list ++ [item]) else .error .write

def addAdvItemToList (g : AdvLists) (item : AdvItem) : Checked AdvLists := do
  let list5s ← if item.adLen = 5 then push g.list5s item else pure g.list5s
  let list15s ← if item.adLen = 15 then push g.list15s item else pure g.list15s
  let list30s ← if item.adLen = 30 then push g.list30s item else pure g.list30s
  return ⟨list5s,list15s,list30s⟩

def storeLast (g : AdvLists) : Option AdvItem → Checked AdvLists
  | none => .ok g
  | some item => addAdvItemToList g item

inductive Sw where
  | start (advItem : Option AdvItem)
  | url (advItem : AdvItem) (offset : Nat)
  | type (advItem : AdvItem) (offset : Nat)
  | len (advItem : AdvItem)

def Sw.advItem : Sw → Option AdvItem
  | .start item => item
  | .url item _ => some item
  | .type item _ => some item
  | .len item => some item

-- A NUL ends the file. `mallocs` tells how many of the calls of rgos_malloc succeed.
def createLoop : Bytes → Nat → AdvLists → Sw → Checked AdvLists
  | [],_,g,sw => storeLast g sw.advItem
  | c :: file,mallocs,g,sw =>
    if c = 0 then storeLast g sw.advItem
    else
      match sw with
      | .start last => do
        let g ← storeLast g last
        match mallocs with
        | 0 => return g
        | mallocs + 1 => createLoop file mallocs g (.url (← AdvItem.zero.pokeUrl 0 c) 1)
      | .url item offset =>
        if c = 32 then createLoop file mallocs g (.type item 0)
        else do createLoop file mallocs g (.url (← item.pokeUrl offset c) (offset + 1))
      | .type item offset =>
        if c = 32 then createLoop file mallocs g (.len item)
        else do createLoop file mallocs g (.type (← item.pokeType offset c) (offset + 1))
      | .len item =>
        if c = 10 then createLoop file mallocs g (.start (some item))
        else if c = 13 then createLoop file mallocs g (.len item)
        else createLoop file mallocs g (.len { item with adLen := item.adLen * 10 + (c - 48) })

def createAdvList (mallocs : Nat) (g : AdvLists) : Option Bytes → Checked AdvLists
  | none => .ok g
  | some file => createLoop file mallocs g (.start none)

def AdvItem.typeText (item : AdvItem) : Bytes := cstr (item.adType ++ item.adLen :: [0,0,0])
def AdvItem.urlText (item : AdvItem) : Bytes := cstr (item.adUrl ++ item.adType ++ item.adLen :: [0,0,0])

def wordByte (b : Byte) : Bool := b != 0 && b != 10 && b != 32

structure AdLine where
  url : Bytes
  type : Bytes
  digits : Bytes
  cr : Bool
  some_ : url ≠ []
  words : ∀ b ∈ url ++ type,wordByte b = true
  number : ∀ b ∈ digits,isdigit b = true

def AdLine.fields (line : AdLine) : Bytes := line.url ++ 32 :: line.type ++ 32 :: line.digits

def AdLine.ending (line : AdLine) : Bytes := if line.cr then crlf else [10]

def AdLine.length (line : AdLine) : Nat := numeralValue line.digits

def listText (ended : Bool) : List AdLine → Bytes
  | [] => []
  | [line] => line.fields ++ if ended then line.ending else []
  | line :: lines => line.fields ++ line.ending ++ listText ended lines

inductive AdSlot where
  | five | fifteen | thirty
  deriving DecidableEq

def AdSlot.len : AdSlot → Byte
  | .five => 5
  | .fifteen => 15
  | .thirty => 30

def AdvLists.get (g : AdvLists) : AdSlot → List AdvItem
  | .five => g.list5s
  | .fifteen => g.list15s
  | .thirty => g.list30s

def AdvLists.Tells (g : AdvLists) (lines : List AdLine) : Prop := ∀ slot,
  (g.get slot).map (fun item => (item.urlText,item.typeText,item.adLen.toNat)) =
    (lines.filter fun line => decide (line.length = slot.len.toNat)).map fun line => (line.url,line.type,line.length)

-- Every text fits in its array, with its NUL when it is stored; a number that is not the length of a list is not one either
-- when only its last byte is left; and no list gets more than ten items.
structure ListFits (lines : List AdLine) : Prop where
  room : ∀ line ∈ lines,line.url.length ≤ adUrlLen ∧ line.type.length ≤ adTypeLen
  closed : ∀ line ∈ lines,∀ slot : AdSlot,line.length = slot.len.toNat →
    line.type.length < adTypeLen ∧ (line.url.length < adUrlLen ∨ line.type = [])
  whole : ∀ line ∈ lines,∀ slot : AdSlot,line.length % 256 = slot.len.toNat → line.length = slot.len.toNat
  few : ∀ slot : AdSlot,lines.countP (fun line => decide (line.length = slot.len.toNat)) ≤ adListLen

def fitted (room : Nat) (text : Bytes) : Bytes := (filled room text).take room

theorem fittedSize (room : Nat) (text : Bytes) : (fitted room text).length = room := by
  simp [fitted,filled]
  omega

def AdvItem.make (url type : Bytes) (len : Byte) : AdvItem :=
  ⟨fitted adUrlLen url,fitted adTypeLen type,len,fittedSize _ _,fittedSize _ _⟩

def AdLine.Room (line : AdLine) : Prop := line.url.length ≤ adUrlLen ∧ line.type.length ≤ adTypeLen

instance (line : AdLine) : Decidable line.Room := by unfold AdLine.Room; infer_instance

def AdLine.item (line : AdLine) : AdvItem := .make line.url line.type (UInt8.ofNat line.length)

def storeAll : AdvLists → List AdLine → Checked AdvLists
  | g,[] => .ok g
  | g,line :: lines => do
    let item ← if line.Room then pure line.item else .error .write
    storeAll (← addAdvItemToList g item) lines

section reading
variable {room mallocs : Nat} {g : AdvLists} {url type done word rest : Bytes} {len : Byte}

theorem fittedShort (fits : done.length ≤ room) : fitted room done = filled room done :=
  List.take_of_length_le (filledSize fits).le

theorem setFitted (inside : done.length < room) (c : Byte) : (fitted room done).set done.length c = fitted room (done ++ [c]) := by
  have next := pokeNext inside.le c
  rw [poke,filledSize inside.le,if_pos inside,if_pos inside] at next
  rw [fittedShort inside.le,fittedShort (by simp; omega)]
  exact Except.ok.inj next

theorem zeroMake : AdvItem.zero = .make [] [] 0 := rfl

theorem pokeUrlMake (done : Bytes) (c : Byte) : (AdvItem.make done type len).pokeUrl done.length c =
    if done.length < adUrlLen then .ok (.make (done ++ [c]) type len) else .error .write := by
  unfold AdvItem.pokeUrl AdvItem.make
  split
  · rename_i inside
    simp only [setFitted inside]
  · rfl

theorem pokeTypeMake (c : Byte) : (AdvItem.make url done len).pokeType done.length c =
    if done.length < adTypeLen then .ok (.make url (done ++ [c]) len) else .error .write := by
  unfold AdvItem.pokeType AdvItem.make
  split
  · rename_i inside
    simp only [setFitted inside]
  · rfl

theorem wordPlain {c : Byte} (plain : wordByte c = true) : c ≠ 0 ∧ c ≠ 10 ∧ c ≠ 32 := by
  simpa [wordByte,and_assoc] using plain

theorem wordLoop {room : Nat} (state next : Bytes → Sw)
    (store : ∀ done c file,wordByte c = true → createLoop (c :: file) mallocs g (state done) =
      if done.length < room then createLoop file mallocs g (state (done ++ [c])) else .error .write)
    (stop : ∀ done file,createLoop (32 :: file) mallocs g (state done) = createLoop file mallocs g (next done))
    (done : Bytes) (words : ∀ b ∈ word,wordByte b = true) (fits : done.length ≤ room) :
    createLoop (word ++ 32 :: rest) mallocs g (state done) =
      if (done ++ word).length ≤ room then createLoop rest mallocs g (next (done ++ word)) else .error .write := by
  induction word generalizing done with
  | nil => rw [List.nil_append,List.append_nil,if_pos fits,stop]
  | cons c word ih =>
    rw [List.cons_append,store done c _ (words c List.mem_cons_self)]
    split
    · rename_i inside
      have more := ih (done ++ [c]) (fun b mem => words b (List.mem_cons_of_mem c mem)) (by simp; omega)
      rwa [List.append_assoc,List.singleton_append] at more
    · rename_i full
      rw [if_neg (by simp; omega)]

theorem urlLoop (done : Bytes) (words : ∀ b ∈ word,wordByte b = true) (fits : done.length ≤ adUrlLen) :
    createLoop (word ++ 32 :: rest) mallocs g (.url (.make done type len) done.length) =
      if (done ++ word).length ≤ adUrlLen then createLoop rest mallocs g (.type (.make (done ++ word) type len) 0)
      else .error .write := by
  refine wordLoop (fun done => .url (.make done type len) done.length) (fun done => .type (.make done type len) 0)
    (fun done c file plain => ?_) (fun done file => rfl) done words fits
  obtain ⟨nul,-,blank⟩ := wordPlain plain
  rw [createLoop,if_neg nul,if_neg blank,pokeUrlMake,List.length_append]
  split <;> rfl

theorem typeLoop (done : Bytes) (words : ∀ b ∈ word,wordByte b = true) (fits : done.length ≤ adTypeLen) :
    createLoop (word ++ 32 :: rest) mallocs g (.type (.make url done len) done.length) =
      if (done ++ word).length ≤ adTypeLen then createLoop rest mallocs g (.len (.make url (done ++ word) len))
      else .error .write := by
  refine wordLoop (fun done => .type (.make url done len) done.length) (fun done => .len (.make url done len))
    (fun done c file plain => ?_) (fun done file => rfl) done words fits
  obtain ⟨nul,-,blank⟩ := wordPlain plain
  rw [createLoop,if_neg nul,if_neg blank,pokeTypeMake,List.length_append]
  split <;> rfl

theorem lenLoop {digits : Bytes} (number : ∀ b ∈ digits,isdigit b = true) (n : Nat) :
    createLoop (digits ++ rest) mallocs g (.len (.make url type (UInt8.ofNat n))) = createLoop rest mallocs g
      (.len (.make url type (UInt8.ofNat (digits.foldl (fun n b => 10 * n + (b.toNat - 48)) n)))) := by
  induction digits generalizing n with
  | nil => rfl
  | cons c digits ih =>
    have digit := number c List.mem_cons_self
    have nul : c ≠ 0 := digitOther digit (by decide)
    have line : c ≠ 10 := digitOther digit (by decide)
    have back : c ≠ 13 := digitOther digit (by decide)
    have next : UInt8.ofNat n * 10 + (c - 48) = UInt8.ofNat (10 * n + (c.toNat - 48)) := by
      rw [UInt8.ofNat_add,UInt8.ofNat_mul,UInt8.mul_comm]
      congr 1
      rw [UInt8.ofNat_sub (digitLeast digit)]
      simp
    have value := ih (fun b mem => number b (List.mem_cons_of_mem c mem)) (10 * n + (c.toNat - 48))
    rw [← next] at value
    rw [List.cons_append,createLoop,if_neg nul,if_neg line,if_neg back,List.foldl_cons]
    exact value

theorem endingLoop (line : AdLine) (item : AdvItem) : createLoop (line.ending ++ rest) mallocs g (.len item) =
    createLoop rest mallocs g (.start (some item)) := by
  unfold AdLine.ending
  split
  · simp [crlf,createLoop]
  · simp [createLoop]

theorem lineLoop (line : AdLine) (last : Option AdvItem) : createLoop (line.fields ++ rest) (mallocs + 1) g (.start last) = (do
    let g ← storeLast g last
    if line.Room then createLoop rest mallocs g (.len line.item) else .error .write) := by
  obtain ⟨first,word,shape⟩ := List.exists_cons_of_ne_nil line.some_
  have urlWords (b : Byte) (mem : b ∈ line.url) : wordByte b = true := line.words b (List.mem_append_left _ mem)
  have typeWords (b : Byte) (mem : b ∈ line.type) : wordByte b = true := line.words b (List.mem_append_right _ mem)
  obtain ⟨nul,-⟩ := wordPlain (urlWords first (by rw [shape]; exact List.mem_cons_self))
  have begun : AdvItem.zero.pokeUrl 0 first = .ok (.make [first] [] 0) := by
    rw [zeroMake]
    exact (pokeUrlMake [] first).trans (if_pos (by decide))
  have text : line.fields ++ rest = first :: (word ++ 32 :: (line.type ++ 32 :: (line.digits ++ rest))) := by
    simp [AdLine.fields,shape]
  rw [text,createLoop,if_neg nul,begun]
  refine congrArg (storeLast g last >>= ·) (funext fun g => ?_)
  have url : createLoop (word ++ 32 :: (line.type ++ 32 :: (line.digits ++ rest))) mallocs g (.url (.make [first] [] 0) 1) = _ := urlLoop [first]
    (fun b mem => urlWords b (by rw [shape]; exact List.mem_cons_of_mem _ mem))
    (show 1 ≤ adUrlLen by decide)
  have type : createLoop (line.type ++ 32 :: (line.digits ++ rest)) mallocs g (.type (.make line.url [] 0) ([] : Bytes).length) = _ :=
    typeLoop [] typeWords (by decide)
  have length : createLoop (line.digits ++ rest) mallocs g (.len (.make line.url line.type (UInt8.ofNat 0))) = _ := lenLoop line.number 0
  rw [List.singleton_append,← shape] at url
  rw [List.nil_append,List.length_nil] at type
  refine url.trans ?_
  by_cases long : line.url.length ≤ adUrlLen
  · rw [if_pos long,type]
    by_cases wide : line.type.length ≤ adTypeLen
    · have room : line.Room := ⟨long,wide⟩
      rw [if_pos wide,if_pos room]
      exact length
    · have full : ¬line.Room := fun both => wide both.2
      rw [if_neg wide,if_neg full]
  · have full : ¬line.Room := fun both => long both.1
    rw [if_neg long,if_neg full]

theorem listLoop (ended : Bool) (lines : List AdLine) (mallocs : Nat) (g : AdvLists) (last : Option AdvItem) :
    createLoop (listText ended lines) mallocs g (.start last) = (do
      storeAll (← storeLast g last) (lines.take mallocs)) := by
  induction lines generalizing mallocs g last with
  | nil =>
    rw [List.take_nil]
    exact (bind_pure _).symm
  | cons line lines ih =>
    obtain ⟨first,word,shape⟩ := List.exists_cons_of_ne_nil line.some_
    have nul : first ≠ 0 := (wordPlain (line.words first (by simp [shape]))).1
    obtain ⟨rest,text,behind⟩ : ∃ rest,listText ended (line :: lines) = line.fields ++ rest ∧
        ∀ mallocs g,createLoop rest mallocs g (.len line.item) = (do
          storeAll (← addAdvItemToList g line.item) (lines.take mallocs)) := by
      cases lines with
      | nil =>
        refine ⟨if ended then line.ending else [],rfl,fun mallocs g => ?_⟩
        have stored : createLoop [] mallocs g (.start (some line.item)) = addAdvItemToList g line.item := rfl
        rw [List.take_nil]
        refine Eq.trans ?_ (bind_pure _).symm
        cases ended with
        | false => rfl
        | true =>
          rw [if_pos rfl,← List.append_nil line.ending,endingLoop]
          exact stored
      | cons next lines =>
        refine ⟨line.ending ++ listText ended (next :: lines),by rw [listText,List.append_assoc]; simp,fun mallocs g => ?_⟩
        rw [endingLoop,ih]
        rfl
    rw [text]
    cases mallocs with
    | zero =>
      have front : line.fields ++ rest = first :: (word ++ 32 :: (line.type ++ 32 :: (line.digits ++ rest))) := by
        simp [AdLine.fields,shape]
      rw [front,createLoop,if_neg nul,List.take_zero]
      rfl
    | succ mallocs =>
      rw [lineLoop,List.take_succ_cons]
      refine congrArg (storeLast g last >>= ·) (funext fun g => ?_)
      rw [storeAll]
      split
      · exact behind mallocs g
      · rfl

end reading

def AdvLists.add (g : AdvLists) (item : AdvItem) : AdvLists :=
  ⟨if item.adLen = 5 then g.list5s ++ [item] else g.list5s,if item.adLen = 15 then g.list15s ++ [item] else g.list15s,
    if item.adLen = 30 then g.list30s ++ [item] else g.list30s⟩

section storing
variable {g : AdvLists}

theorem pushMeets (list : List AdvItem) (item : AdvItem) {post : List AdvItem → Prop} :
    Meets (push list item) post ↔ list.length < adListLen ∧ post (list ++ [item]) := by
  unfold push
  split
  · rename_i room
    simp [room]
  · rename_i full
    simp [full]

theorem addGet (g : AdvLists) (item : AdvItem) (slot : AdSlot) : (g.add item).get slot =
    if item.adLen = slot.len then g.get slot ++ [item] else g.get slot := by
  cases slot <;> rfl

theorem addMeets (item : AdvItem) {post : AdvLists → Prop} : Meets (addAdvItemToList g item) post ↔
    (∀ slot : AdSlot,item.adLen = slot.len → (g.get slot).length < adListLen) ∧ post (g.add item) := by
  have slots : (∀ slot : AdSlot,item.adLen = slot.len → (g.get slot).length < adListLen) ↔
      (item.adLen = 5 → g.list5s.length < adListLen) ∧ (item.adLen = 15 → g.list15s.length < adListLen) ∧
        (item.adLen = 30 → g.list30s.length < adListLen) :=
    ⟨fun all => ⟨all .five,all .fifteen,all .thirty⟩,fun all slot => by
      cases slot with
      | five => exact all.1
      | fifteen => exact all.2.1
      | thirty => exact all.2.2⟩
  rw [slots]
  simp only [addAdvItemToList,meetsBind,meetsIf,pushMeets,meetsPure,AdvLists.add]
  by_cases five : item.adLen = 5
  · simp [five]
  · by_cases fifteen : item.adLen = 15
    · simp [fifteen]
    · by_cases thirty : item.adLen = 30
      · simp [thirty]
      · simp [five,fifteen,thirty]

theorem addAllGet (items : List AdvItem) (slot : AdSlot) :
    (items.foldl AdvLists.add g).get slot = g.get slot ++ items.filter fun item => decide (item.adLen = slot.len) := by
  induction items generalizing g with
  | nil => simp
  | cons item items ih =>
    rw [List.foldl_cons,ih,addGet,List.filter_cons]
    by_cases here : item.adLen = slot.len
    · simp [here]
    · simp [here]

theorem storeMeets (few : ∀ slot,(g.get slot).length ≤ adListLen) (lines : List AdLine) {post : AdvLists → Prop} :
    Meets (storeAll g lines) post ↔ (∀ line ∈ lines,line.Room) ∧
      (∀ slot : AdSlot,(g.get slot).length + lines.countP (fun line => decide (line.item.adLen = slot.len)) ≤ adListLen) ∧
        post ((lines.map AdLine.item).foldl AdvLists.add g) := by
  induction lines generalizing g with
  | nil => simpa [storeAll] using fun _ => few
  | cons line lines ih =>
    simp only [storeAll,meetsBind,meetsIf,meetsPure,meetsError,List.forall_mem_cons,List.map_cons,List.foldl_cons]
    by_cases room : line.Room
    · have size (slot : AdSlot) : ((g.add line.item).get slot).length =
          (g.get slot).length + if line.item.adLen = slot.len then 1 else 0 := by
        rw [addGet]
        split <;> simp
      rw [if_pos room,addMeets]
      have next (space : ∀ slot : AdSlot,line.item.adLen = slot.len → (g.get slot).length < adListLen) :
          ∀ slot,((g.add line.item).get slot).length ≤ adListLen := by
        intro slot
        rw [size]
        have full := few slot
        split
        · rename_i here
          exact space slot here
        · exact full
      have counts (slot : AdSlot) : (g.get slot).length +
          (line :: lines).countP (fun line => decide (line.item.adLen = slot.len)) =
          ((g.add line.item).get slot).length + lines.countP (fun line => decide (line.item.adLen = slot.len)) := by
        rw [size,List.countP_cons]
        by_cases here : line.item.adLen = slot.len
        · simp [here]
          omega
        · simp [here]
      simp only [counts,room,true_and]
      constructor
      · rintro ⟨space,meets⟩
        exact (ih (next space)).mp meets
      · intro all
        have space (slot : AdSlot) (here : line.item.adLen = slot.len) : (g.get slot).length < adListLen := by
          have most := all.2.1 slot
          rw [size,if_pos here] at most
          omega
        exact ⟨space,(ih (next space)).mpr all⟩
    · simp [room]

end storing

section told
variable {line : AdLine}

theorem lineClean (line : AdLine) : (0 : Byte) ∉ line.url ∧ (0 : Byte) ∉ line.type := by
  constructor
  · intro mem
    exact absurd (line.words 0 (List.mem_append_left _ mem)) (by decide)
  · intro mem
    exact absurd (line.words 0 (List.mem_append_right _ mem)) (by decide)

theorem filledWhole {room : Nat} {text : Bytes} (full : text.length = room) : filled room text = text := by
  simp [filled,full]

theorem cstrBehind {room : Nat} {text : Bytes} (clean : (0 : Byte) ∉ text) (fits : text.length ≤ room) (behind : Bytes) :
    cstr (fitted room text ++ behind) = if text.length < room then text else text ++ cstr behind := by
  rw [fittedShort fits]
  split
  · rename_i inside
    obtain ⟨rest,shape⟩ := filledNul inside
    rw [shape,List.append_assoc,List.cons_append]
    exact cstrTerminated text _ clean
  · rename_i full
    rw [filledWhole (by omega),cstrAppend,if_neg clean]

theorem typeTold (room : line.Room) (some_ : line.item.adLen ≠ 0) :
    line.item.typeText = line.type ↔ line.type.length < adTypeLen := by
  have read := cstrBehind (lineClean line).2 room.2 (line.item.adLen :: [0,0,0])
  have text : line.item.typeText = cstr (fitted adTypeLen line.type ++ line.item.adLen :: [0,0,0]) := rfl
  rw [text,read]
  split
  · rename_i inside
    exact iff_of_true rfl inside
  · rename_i full
    refine iff_of_false (fun same => ?_) full
    have size := congrArg List.length same
    simp [cstr,some_] at size

theorem urlTold (room : line.Room) (told : line.item.typeText = line.type) :
    line.item.urlText = line.url ↔ line.url.length < adUrlLen ∨ line.type = [] := by
  have read := cstrBehind (lineClean line).1 room.1 (fitted adTypeLen line.type ++ line.item.adLen :: [0,0,0])
  have text : line.item.urlText =
      cstr (fitted adUrlLen line.url ++ (fitted adTypeLen line.type ++ line.item.adLen :: [0,0,0])) := by
    unfold AdvItem.urlText
    rw [List.append_assoc]
    rfl
  have behind : cstr (fitted adTypeLen line.type ++ line.item.adLen :: [0,0,0]) = line.type := told
  rw [text,read,behind]
  split
  · rename_i inside
    exact iff_of_true rfl (.inl inside)
  · rename_i full
    simp [full]

theorem slotSmall (slot : AdSlot) : slot.len.toNat < 256 ∧ slot.len ≠ 0 := by
  cases slot <;> decide

theorem lenSlot (line : AdLine) (slot : AdSlot) : line.item.adLen = slot.len ↔ line.length % 256 = slot.len.toNat := by
  have byte : line.item.adLen.toNat = line.length % 256 := UInt8.toNat_ofNat'
  rw [← byte,UInt8.toNat_inj]

theorem filterWithin {α : Type} {p q : α → Bool} {l : List α} (within : ∀ a ∈ l,q a = true → p a = true)
    (same : (l.filter p).length = (l.filter q).length) : ∀ a ∈ l,p a = true → q a = true := by
  have part : (l.filter p).filter q = l.filter q := by
    rw [List.filter_filter]
    refine List.filter_congr fun a mem => ?_
    cases here : q a with
    | false => rfl
    | true => exact within a mem here
  rw [← part,eq_comm,List.length_filter_eq_length_iff] at same
  exact fun a mem here => same a (List.mem_filter.mpr ⟨mem,here⟩)

theorem tellsExactly {lines : List AdLine} (rooms : ∀ line ∈ lines,line.Room) :
    ((lines.map AdLine.item).foldl AdvLists.add {}).Tells lines ↔ ∀ line ∈ lines,∀ slot : AdSlot,
      (line.length % 256 = slot.len.toNat → line.length = slot.len.toNat) ∧ (line.length = slot.len.toNat →
        line.type.length < adTypeLen ∧ (line.url.length < adUrlLen ∨ line.type = [])) := by
  have texts {line : AdLine} (mem : line ∈ lines) {slot : AdSlot} (here : line.length = slot.len.toNat) :
      (line.item.urlText,line.item.typeText,line.item.adLen.toNat) = (line.url,line.type,line.length) ↔
        line.type.length < adTypeLen ∧ (line.url.length < adUrlLen ∨ line.type = []) := by
    have small := slotSmall slot
    have len : line.item.adLen = slot.len := (lenSlot line slot).mpr (by rw [here]; exact Nat.mod_eq_of_lt small.1)
    have told := typeTold (rooms line mem) (by rw [len]; exact small.2)
    simp only [Prod.mk.injEq,len,here,and_true]
    constructor
    · rintro ⟨url,type⟩
      exact ⟨told.mp type,(urlTold (rooms line mem) type).mp url⟩
    · rintro ⟨type,url⟩
      exact ⟨(urlTold (rooms line mem) (told.mpr type)).mpr url,told.mpr type⟩
  unfold AdvLists.Tells
  have nothing (slot : AdSlot) : AdvLists.get {} slot = [] := by cases slot <;> rfl
  simp only [addAllGet,nothing,List.nil_append,List.filter_map,List.map_map,Function.comp_def,lenSlot]
  constructor
  · intro tells line mem slot
    have sizes := congrArg List.length (tells slot)
    rw [List.length_map,List.length_map] at sizes
    have within := filterWithin (p := fun line : AdLine => decide (line.length % 256 = slot.len.toNat))
      (q := fun line => decide (line.length = slot.len.toNat)) (l := lines)
      (fun line _ here => by
        rw [decide_eq_true_eq] at here ⊢
        rw [here]
        exact Nat.mod_eq_of_lt (slotSmall slot).1) sizes
    refine ⟨fun here => by simpa using within line mem (by simpa using here),fun here => ?_⟩
    have same : lines.filter (fun line => decide (line.length % 256 = slot.len.toNat)) =
        lines.filter fun line => decide (line.length = slot.len.toNat) := by
      refine List.filter_congr fun line mem => Bool.eq_iff_iff.mpr ⟨within line mem,fun here => ?_⟩
      rw [decide_eq_true_eq] at here ⊢
      rw [here]
      exact Nat.mod_eq_of_lt (slotSmall slot).1
    have all := tells slot
    rw [same] at all
    exact (texts mem here).mp (List.map_inj_left.mp all line (List.mem_filter.mpr ⟨mem,by simpa using here⟩))
  · intro all slot
    have same : lines.filter (fun line => decide (line.length % 256 = slot.len.toNat)) =
        lines.filter fun line => decide (line.length = slot.len.toNat) := by
      refine List.filter_congr fun line mem => Bool.eq_iff_iff.mpr ?_
      rw [decide_eq_true_eq,decide_eq_true_eq]
      refine ⟨(all line mem slot).1,fun here => ?_⟩
      rw [here]
      exact Nat.mod_eq_of_lt (slotSmall slot).1
    rw [same]
    refine List.map_inj_left.mpr fun line here => ?_
    obtain ⟨mem,here⟩ := List.mem_filter.mp here
    rw [decide_eq_true_eq] at here
    exact (texts mem here).mpr ((all line mem slot).2 here)

end told

/-- As long as there is memory, a list file is taken as it stands exactly when its lines fit. -/
theorem adListExactly (lines : List AdLine) (ended : Bool) {mallocs : Nat} (enough : lines.length ≤ mallocs) :
    Meets (createAdvList mallocs {} (some (listText ended lines))) (fun g => g.Tells lines) ↔ ListFits lines := by
  have empty (slot : AdSlot) : AdvLists.get {} slot = [] := by cases slot <;> rfl
  have run : createAdvList mallocs {} (some (listText ended lines)) = storeAll {} lines := by
    rw [createAdvList,listLoop,List.take_of_length_le enough]
    rfl
  rw [run,storeMeets (by simp [empty])]
  simp only [empty,List.length_nil,Nat.zero_add,lenSlot]
  have counts (whole : ∀ line ∈ lines,∀ slot : AdSlot,line.length % 256 = slot.len.toNat → line.length = slot.len.toNat)
      (slot : AdSlot) : lines.countP (fun line => decide (line.length % 256 = slot.len.toNat)) =
        lines.countP fun line => decide (line.length = slot.len.toNat) := by
    refine List.countP_congr fun line mem => ?_
    rw [decide_eq_true_eq,decide_eq_true_eq]
    refine ⟨whole line mem slot,fun here => ?_⟩
    rw [here]
    exact Nat.mod_eq_of_lt (slotSmall slot).1
  constructor
  · rintro ⟨rooms,few,tells⟩
    have all := (tellsExactly rooms).mp tells
    have whole (line : AdLine) (mem : line ∈ lines) (slot : AdSlot) := (all line mem slot).1
    refine ⟨rooms,fun line mem slot => (all line mem slot).2,whole,fun slot => ?_⟩
    rw [← counts whole slot]
    exact few slot
  · intro fits
    refine ⟨fits.room,fun slot => ?_,(tellsExactly fits.room).mpr fun line mem slot => ?_⟩
    · rw [counts fits.whole slot]
      exact fits.few slot
    · exact ⟨fits.whole line mem slot,fits.closed line mem slot⟩

def flvLine : AdLine := ⟨ascii "http://a/1",ascii "flv",ascii "15",true,by decide,by decide +kernel,by decide +kernel⟩
def mp4Line : AdLine := ⟨ascii "http://a/2",ascii "mp4",ascii "5",false,by decide,by decide +kernel,by decide +kernel⟩

theorem adListTwo : Meets (createAdvList 2 {} (some (listText false [flvLine,mp4Line]))) (fun g => g.Tells [flvLine,mp4Line]) := by
  have short : ∀ line ∈ [flvLine,mp4Line],line.type.length < adTypeLen ∧ line.url.length < adUrlLen := by decide
  refine (adListExactly [flvLine,mp4Line] false le_rfl).mpr ⟨by decide,?_,?_,fun slot => ?_⟩
  · intro line mem slot _
    exact ⟨(short line mem).1,.inl (short line mem).2⟩
  · intro line mem slot
    cases slot <;> revert line <;> decide
  · cases slot <;> decide

def longUrl : AdLine := ⟨List.replicate 65 97,ascii "flv",ascii "15",false,by decide,by decide +kernel,by decide +kernel⟩
def wideLength : AdLine := ⟨ascii "u",ascii "flv",ascii "261",false,by decide,by decide +kernel,by decide +kernel⟩

theorem adListOverrun :
    ¬Meets (createAdvList 1 {} (some (listText true [longUrl]))) (fun g => g.Tells [longUrl]) ∧
    ¬Meets (createAdvList 11 {} (some (listText true (List.replicate 11 flvLine))))
      (fun g => g.Tells (List.replicate 11 flvLine)) ∧
    createAdvList 1 {} (some (listText true [wideLength])) = .ok { list5s := [.make (ascii "u") (ascii "flv") 5] } := by
  have long : createAdvList 1 {} (some (listText true [longUrl])) = .error .write := by decide
  have many : createAdvList 11 {} (some (listText true (List.replicate 11 flvLine))) = .error .write := by decide +kernel
  rw [long,many]
  exact ⟨meetsError _,meetsError _,by decide⟩

end MipsElfExec.Adv

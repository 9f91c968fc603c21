import Mathlib.Data.List.Infix
import MipsElfExec.Adv.AdList

/-! The document that answers a player: one object for the first item of each list. It is printed into a buffer of the
caller, which is not told to the printing. -/
namespace MipsElfExec.Adv
open CString Access

def youkuAndordAdvHead : Bytes := ascii "\x7b\"P\":7,\"VAL\":["
def youkuAndordAdvValAl : Bytes := ascii "\x7b\"AL\":"
def youkuAndordAdvValRs : Bytes := ascii ",\"AT\":70,\"BRS\":\"\",\"CUF\":1,\"RS\":\""
def youkuAndordAdvValVqt : Bytes := ascii "\",\"RST\":\"video\",\"SDKID\":0,\"SU\":[],\"VID\":\"174510121\",\"VQT\":\""
def youkuAndordAdvValEnd : Bytes := ascii "\"\x7d"
def youkuAndordAdvEnd : Bytes := ascii "]\x7d"

def charText (c : Byte) : Bytes := if c.toNat < 128 then numeral 10 c.toNat else 45 :: numeral 10 (256 - c.toNat)

abbrev Print := Bytes × Nat

def memcpyAt (adv : Print) (bytes : Bytes) : Checked Print := (fun buf => (buf,adv.2 + bytes.length)) <$> blit adv.1 adv.2 bytes

def sprintfAt (adv : Print) (text : Bytes) : Checked Print :=
  (fun buf => (buf,adv.2 + text.length)) <$> blit adv.1 adv.2 (text ++ [0])

def makeYoukuAndordAdvAl (adv : Print) (padv : AdvItem) : Checked Print := do
  let adv ← memcpyAt adv youkuAndordAdvValAl
  let adv ← sprintfAt adv (charText padv.adLen)
  let adv ← memcpyAt adv youkuAndordAdvValRs
  let adv ← sprintfAt adv padv.urlText
  let adv ← memcpyAt adv youkuAndordAdvValVqt
  let adv ← sprintfAt adv padv.typeText
  memcpyAt adv youkuAndordAdvValEnd

-- The chain of the items: each pointer is stored through before it is known to be one.
def getAdvItems (g : AdvLists) : Checked (List AdvItem) := do
  let some advHead := g.list15s.head? | .error .null
  let some second := g.list5s.head? | .error .null
  let some third := g.list30s.head? | .error .null
  return [advHead,second,third]

def advLoop : List AdvItem → Print → Checked Print
  | [],adv => .ok adv
  | padv :: rest,adv => do
    let adv ← sprintfAt adv [44]
    advLoop rest (← makeYoukuAndordAdvAl adv padv)

def makeYoukuAndordAdv (g : AdvLists) (youkuAndordAdv : Bytes) : Checked Print := do
  let adv ← memcpyAt (youkuAndordAdv,0) youkuAndordAdvHead
  let adv ← match ← getAdvItems g with
    | [] => pure adv
    | padv :: rest => do advLoop rest (← makeYoukuAndordAdvAl adv padv)
  memcpyAt adv youkuAndordAdvEnd

def advBufLen : Nat := 1024

def advMain (mallocs : Nat) (file : Option Bytes) : Checked Print := do
  makeYoukuAndordAdv (← createAdvList mallocs {} file) (filled advBufLen [])

def object (len : Byte) (url type : Bytes) : Bytes := youkuAndordAdvValAl ++ charText len ++ youkuAndordAdvValRs ++ url ++
  youkuAndordAdvValVqt ++ type ++ youkuAndordAdvValEnd

def document (objects : List Bytes) : Bytes := youkuAndordAdvHead ++ List.intercalate [44] objects ++ youkuAndordAdvEnd

def AdvItem.object (item : AdvItem) : Bytes := Adv.object item.adLen (cstr item.adUrl) (cstr item.adType)

def AdvLists.document (g : AdvLists) : Bytes :=
  Adv.document (([g.list15s,g.list5s,g.list30s].filterMap List.head?).map AdvItem.object)

def AdvLists.Printed (g : AdvLists) (adv : Print) : Prop :=
  adv = (filled advBufLen g.document,g.document.length)

def AdvItem.Closed (item : AdvItem) : Prop :=
  (0 ∈ item.adUrl ∨ item.adType.head? = some 0) ∧ (0 ∈ item.adType ∨ item.adLen = 0)

instance (item : AdvItem) : Decidable item.Closed := by unfold AdvItem.Closed; infer_instance

def AdvLists.Complete (g : AdvLists) : Prop := ∀ list ∈ [g.list15s,g.list5s,g.list30s],∃ item ∈ list.head?,item.Closed

section printing
variable {room : Nat} {text bytes : Bytes}

theorem memcpyText (fits : (text ++ bytes).length ≤ room) :
    memcpyAt (filled room text,text.length) bytes = .ok (filled room (text ++ bytes),(text ++ bytes).length) := by
  have front : text.length ≤ room := by rw [List.length_append] at fits; omega
  rw [memcpyAt,blitNext front,if_pos fits,List.length_append]
  rfl

theorem sprintfText (fits : (text ++ bytes).length < room) :
    sprintfAt (filled room text,text.length) bytes = .ok (filled room (text ++ bytes),(text ++ bytes).length) := by
  have front : text.length ≤ room := by rw [List.length_append] at fits; omega
  have whole : (text ++ (bytes ++ [0])).length ≤ room := by
    rw [← List.append_assoc,List.length_append,List.length_singleton]
    omega
  rw [sprintfAt,blitNext front,if_pos whole,← List.append_assoc,filledEnd fits,List.length_append]
  rfl

def AdvItem.printed (item : AdvItem) : Bytes := Adv.object item.adLen item.urlText item.typeText

theorem alText {item : AdvItem} (fits : (text ++ item.printed).length < room) :
    makeYoukuAndordAdvAl (filled room text,text.length) item =
      .ok (filled room (text ++ item.printed),(text ++ item.printed).length) := by
  simp only [AdvItem.printed,object,List.length_append] at fits
  unfold makeYoukuAndordAdvAl
  rw [memcpyText (by simp only [List.length_append]; omega)]
  change (sprintfAt _ _ >>= _) = _
  rw [sprintfText (by simp only [List.length_append]; omega)]
  change (memcpyAt _ _ >>= _) = _
  rw [memcpyText (by simp only [List.length_append]; omega)]
  change (sprintfAt _ _ >>= _) = _
  rw [sprintfText (by simp only [List.length_append]; omega)]
  change (memcpyAt _ _ >>= _) = _
  rw [memcpyText (by simp only [List.length_append]; omega)]
  change (sprintfAt _ _ >>= _) = _
  rw [sprintfText (by simp only [List.length_append]; omega)]
  change memcpyAt _ _ = _
  rw [memcpyText (by simp only [List.length_append]; omega)]
  simp only [AdvItem.printed,object,List.append_assoc]

theorem loopText {items : List AdvItem} (fits : (text ++ items.flatMap fun item => 44 :: item.printed).length < room) :
    advLoop items (filled room text,text.length) = .ok (filled room (text ++ items.flatMap fun item => 44 :: item.printed),
      (text ++ items.flatMap fun item => 44 :: item.printed).length) := by
  induction items generalizing text with
  | nil => simp [advLoop]
  | cons item items ih =>
    have parts : text ++ (item :: items).flatMap (fun item => 44 :: item.printed) =
        text ++ [44] ++ item.printed ++ items.flatMap fun item => 44 :: item.printed := by
      simp
    rw [parts] at fits ⊢
    have short := fits
    simp only [List.length_append,List.length_singleton] at short
    rw [advLoop,sprintfText (by simp only [List.length_append,List.length_singleton]; omega)]
    change (makeYoukuAndordAdvAl _ _ >>= _) = _
    rw [alText (by simp only [List.length_append,List.length_singleton]; omega)]
    exact ih fits

end printing

section texts
variable (item : AdvItem) {s t : Bytes}

theorem cstrMore (s t : Bytes) : (cstr s).length ≤ (cstr (s ++ t)).length ∧
    ((cstr (s ++ t)).length = (cstr s).length → cstr (s ++ t) = cstr s) ∧
      (cstr (s ++ t) = cstr s ↔ 0 ∈ s ∨ cstr t = []) := by
  rw [cstrAppend]
  split
  · rename_i nul
    simp [nul]
  · rename_i clean
    rw [cstrOfNoNul clean]
    simp [clean]

theorem typeClosed : item.typeText = cstr item.adType ↔ 0 ∈ item.adType ∨ item.adLen = 0 := by
  refine (cstrMore item.adType (item.adLen :: [0,0,0])).2.2.trans (or_congr_right ?_)
  simp [cstr]

theorem urlClosed : item.urlText = cstr item.adUrl ↔ 0 ∈ item.adUrl ∨ item.adType.head? = some 0 := by
  unfold AdvItem.urlText
  rw [List.append_assoc,(cstrMore item.adUrl (item.adType ++ item.adLen :: [0,0,0])).2.2]
  refine or_congr_right ?_
  obtain ⟨-,size⟩ := item.sized
  cases type : item.adType with
  | nil =>
    rw [type] at size
    cases size
  | cons b bs => simp [cstr]

theorem printedObject : item.object.length ≤ item.printed.length ∧
    (item.printed.length = item.object.length → item.Closed) ∧ (item.Closed → item.printed = item.object) := by
  have url := cstrMore item.adUrl (item.adType ++ item.adLen :: [0,0,0])
  have type := cstrMore item.adType (item.adLen :: [0,0,0])
  rw [← List.append_assoc] at url
  simp only [AdvItem.object,AdvItem.printed,object,List.length_append]
  unfold AdvItem.Closed
  rw [← typeClosed,← urlClosed]
  refine ⟨?_,fun same => ?_,fun closed => ?_⟩
  · unfold AdvItem.urlText AdvItem.typeText
    omega
  · unfold AdvItem.urlText AdvItem.typeText at same ⊢
    exact ⟨url.2.1 (by omega),type.2.1 (by omega)⟩
  · rw [closed.1,closed.2]

theorem paddedShort (s : Bytes) (b : Byte) : (cstr (s ++ b :: [0,0,0])).length ≤ s.length + 1 := by
  have short := (cstrPrefix (s ++ [b])).length_le
  rw [← cstrAppendNul (s ++ [b]) [0,0],List.append_assoc,List.length_append] at short
  exact short

theorem charShort (c : Byte) : (charText c).length ≤ 4 := by
  have small := c.toNat_lt
  unfold charText
  split
  · exact (numeralWidth (by decide) 2 (by omega)).trans (by decide)
  · rw [List.length_cons]
    have width : (numeral 10 (256 - c.toNat)).length ≤ 3 := numeralWidth (by decide) 2 (by omega)
    omega

theorem printedShort : item.printed.length ≤ 200 := by
  obtain ⟨urlSize,typeSize⟩ := item.sized
  have number := charShort item.adLen
  have url := paddedShort (item.adUrl ++ item.adType) item.adLen
  have type := paddedShort item.adType item.adLen
  rw [List.length_append,urlSize] at url
  rw [typeSize] at url type
  have al : youkuAndordAdvValAl.length = 6 := by decide
  have rs : youkuAndordAdvValRs.length = 32 := by decide
  have vqt : youkuAndordAdvValVqt.length = 59 := by decide
  have last : youkuAndordAdvValEnd.length = 2 := by decide
  have urlLimit : adUrlLen = 64 := rfl
  have typeLimit : adTypeLen = 8 := rfl
  simp only [AdvItem.printed,object,List.length_append,al,rs,vqt,last,AdvItem.urlText,AdvItem.typeText]
  omega

end texts

section runs
variable {g : AdvLists} {first second third : AdvItem}

theorem documentThree (a b c : Bytes) : document [a,b,c] = youkuAndordAdvHead ++ a ++ ([44] ++ b ++ ([44] ++ c)) ++ youkuAndordAdvEnd := by
  simp [document,List.intercalate]

theorem documentLength (a b c : Bytes) : (document [a,b,c]).length = 18 + a.length + b.length + c.length := by
  have head : youkuAndordAdvHead.length = 14 := by decide
  have last : youkuAndordAdvEnd.length = 2 := by decide
  simp only [documentThree,List.length_append,List.length_singleton,head,last]
  omega

theorem headText : memcpyAt (filled advBufLen [],0) youkuAndordAdvHead =
    .ok (filled advBufLen youkuAndordAdvHead,youkuAndordAdvHead.length) := memcpyText (show ([] ++ youkuAndordAdvHead).length ≤ advBufLen by decide)

theorem printedRun (one : g.list15s.head? = some first) (two : g.list5s.head? = some second) (three : g.list30s.head? = some third) :
    makeYoukuAndordAdv g (filled advBufLen []) = .ok (filled advBufLen (document [first.printed,second.printed,third.printed]),
      (document [first.printed,second.printed,third.printed]).length) := by
  have size := documentLength first.printed second.printed third.printed
  have room : advBufLen = 1024 := rfl
  have short : (document [first.printed,second.printed,third.printed]).length < advBufLen := by
    have a := printedShort first
    have b := printedShort second
    have c := printedShort third
    omega
  have parts := documentThree first.printed second.printed third.printed
  have items : [second,third].flatMap (fun item => 44 :: item.printed) = [44] ++ second.printed ++ ([44] ++ third.printed) := by simp
  rw [← items] at parts
  have lengths := short
  rw [parts] at lengths
  simp only [List.length_append] at lengths
  have chain : getAdvItems g = .ok [first,second,third] := by
    unfold getAdvItems
    rw [one,two,three]
    rfl
  unfold makeYoukuAndordAdv
  rw [headText,chain]
  generalize advBufLen = buf at *
  change (do
    let adv ← advLoop [second,third] (← makeYoukuAndordAdvAl (filled buf youkuAndordAdvHead,youkuAndordAdvHead.length) first)
    memcpyAt adv youkuAndordAdvEnd) = _
  rw [alText (by rw [List.length_append]; omega)]
  change (advLoop _ _ >>= _) = _
  rw [loopText (by rw [List.length_append,List.length_append]; omega)]
  change memcpyAt _ _ = _
  rw [memcpyText (by rw [← parts]; omega),← parts]

theorem missingRun (missing : g.list15s.head? = none ∨ g.list5s.head? = none ∨ g.list30s.head? = none) :
    makeYoukuAndordAdv g (filled advBufLen []) = .error .null := by
  have chain : getAdvItems g = .error .null := by
    unfold getAdvItems
    cases one : g.list15s.head? with
    | none => rfl
    | some first =>
      cases two : g.list5s.head? with
      | none => rfl
      | some second =>
        cases three : g.list30s.head? with
        | none => rfl
        | some third =>
          rw [one,two,three] at missing
          simp at missing
  unfold makeYoukuAndordAdv
  rw [headText,chain]
  rfl

end runs

theorem documentExactly (g : AdvLists) : Meets (makeYoukuAndordAdv g (filled advBufLen [])) g.Printed ↔ g.Complete := by
  by_cases missing : g.list15s.head? = none ∨ g.list5s.head? = none ∨ g.list30s.head? = none
  · rw [missingRun missing]
    refine iff_of_false (meetsError _) fun complete => ?_
    have some_ : ∀ list ∈ [g.list15s,g.list5s,g.list30s],list.head? ≠ none := by
      intro list mem none_
      obtain ⟨item,first,-⟩ := complete list mem
      rw [none_] at first
      cases first
    simp only [List.forall_mem_cons] at some_
    exact missing.elim some_.1 fun rest => rest.elim some_.2.1 some_.2.2.1
  · simp only [not_or,← ne_eq,Option.ne_none_iff_exists'] at missing
    obtain ⟨⟨first,one⟩,⟨second,two⟩,third,three⟩ := missing
    have whole : g.document = document [first.object,second.object,third.object] := by
      simp [AdvLists.document,one,two,three]
    have complete : g.Complete ↔ first.Closed ∧ second.Closed ∧ third.Closed := by
      simp [AdvLists.Complete,one,two,three]
    have a := printedObject first
    have b := printedObject second
    have c := printedObject third
    rw [printedRun one two three,meetsOk,complete,AdvLists.Printed,whole]
    constructor
    · intro same
      have length := congrArg Prod.snd same
      rw [documentLength,documentLength] at length
      exact ⟨a.2.1 (by omega),b.2.1 (by omega),c.2.1 (by omega)⟩
    · rintro ⟨closed,closed',closed''⟩
      rw [a.2.2 closed,b.2.2 closed',c.2.2 closed'']

def wholeUrl : AdLine := ⟨List.replicate 64 97,ascii "flv",longUrl.digits,false,by decide,by decide +kernel,longUrl.number⟩
def shortLine : AdLine := ⟨ascii "v",ascii "mp4",mp4Line.digits,false,by decide,by decide +kernel,mp4Line.number⟩
def longLine : AdLine := ⟨ascii "w",ascii "mp4",ascii "30",false,by decide,by decide +kernel,by decide +kernel⟩

def wholeLists : AdvLists where
  list5s := [.make (ascii "v") (ascii "mp4") 5]
  list15s := [.make (List.replicate 64 97) (ascii "flv") 15]
  list30s := [.make (ascii "w") (ascii "mp4") 30]

theorem documentMissing :
    advMain 1 (some (listText true [flvLine])) = .error .null ∧
    createAdvList 3 {} (some (listText true [wholeUrl,shortLine,longLine])) = .ok wholeLists ∧
    ¬Meets (makeYoukuAndordAdv wholeLists (filled advBufLen [])) wholeLists.Printed := by
  refine ⟨by decide +kernel,by decide +kernel,?_⟩
  rw [printedRun (g := wholeLists) rfl rfl rfl,meetsOk]
  intro same
  have length := congrArg Prod.snd same
  revert length
  decide +kernel

end MipsElfExec.Adv

import Mathlib.Algebra.Order.Ring.Nat
import MipsElfExec.Download.Local
import MipsElfExec.Lib.Checked
import MipsElfExec.Lib.Numeral

/-! The Content-Range line: the texts that name a range, what is read from them, and how far the parser looks.
The parser is told once more with every read checked, on a memory that ends with the line. -/
namespace MipsElfExec.Download
open CString Access

def SameCase (s t : Bytes) : Prop := s.map tolower = t.map tolower
instance (s t : Bytes) : Decidable (SameCase s t) := inferInstanceAs (Decidable (_ = _))

def Blanks (s : Bytes) : Prop := ∀ b ∈ s,isLws b = true
instance (s : Bytes) : Decidable (Blanks s) := inferInstanceAs (Decidable (∀ b ∈ s,isLws b = true))

def Digits (s : Bytes) : Prop := s ≠ [] ∧ ∀ b ∈ s,isdigit b = true

def RangeUnit (unit : Bytes) : Prop :=
  unit = [] ∨ ∃ word blanks,unit = word ++ blanks ∧ SameCase word (ascii "bytes") ∧ Blanks blanks

def rangeText (unit first last entity : Bytes) : Bytes := unit ++ (first ++ 45 :: (last ++ 47 :: entity))

def StartsWithRange (value : Bytes) : Prop := ∃ unit first last entity behind,
  value = rangeText unit first last entity ++ behind ∧ RangeUnit unit ∧ Digits first ∧ Digits last ∧ Digits entity

def contentRangeName : Bytes := ascii "Content-Range"

def rangeLine (name gap unit : Bytes) (a b n : Nat) : Bytes :=
  name ++ 58 :: (gap ++ rangeText unit (numeral 10 a) (numeral 10 b) (numeral 10 n))

def pastNumberChecked (mark : Byte) (hdr : Bytes) : Checked (Option Bytes) := do
  let p ← skip isdigit hdr
  if (← deref p) ≠ mark then return none
  if ¬ isdigit (← deref (p.drop 1)) then return none
  return some (p.drop 1)

def rangeNumbersChecked (hdr : Bytes) : Checked (Option Range) := do
  if ¬ isdigit (← deref hdr) then return none
  let some last ← pastNumberChecked 45 hdr | return none
  let some entity ← pastNumberChecked 47 last | return none
  let _ ← skip isdigit entity
  return some ⟨number hdr,number last,number entity⟩

def httpDlStrncasecmpChecked : Bytes → Bytes → Checked Bool
  | _,[] => .ok true
  | [],_ :: _ => .error .read
  | a :: s,b :: t => if tolower a = tolower b then httpDlStrncasecmpChecked s t else .ok false

def httpDlHeaderParseRangeChecked (hdr : Bytes) : Checked (Option Range) := do
  if ← httpDlStrncasecmpChecked hdr (ascii "bytes") then
    let hdr ← skip isLws (hdr.drop 5)
    if (← deref hdr) = 0 then return none
    rangeNumbersChecked hdr
  else rangeNumbersChecked hdr

def matchNameChecked : Bytes → Bytes → Checked (Option Bytes)
  | [],header => .ok (some header)
  | _ :: _,[] => .error .read
  | n :: name,h :: header => if tolower n = tolower h then matchNameChecked name header else .ok none

def rangeProcessChecked (header : Bytes) : Checked (Processed Range) := do
  match ← matchNameChecked contentRangeName header with
  | none => return .notfound
  | some header =>
    if (← deref header) ≠ 58 then return .notfound
    match ← httpDlHeaderParseRangeChecked (← skip isLws (header.drop 1)) with
    | some range => return .ok range
    | none => return .invalid

def pastNumber (mark : Byte) (hdr : Bytes) : Option Bytes :=
  let p := hdr.dropWhile isdigit
  if p.head? ≠ some mark ∨ ¬ startsDigit (p.drop 1) then none else some (p.drop 1)

def rangeNumbers (hdr : Bytes) : Option Range :=
  if ¬ startsDigit hdr then none
  else (pastNumber 45 hdr).bind fun last => (pastNumber 47 last).map fun entity =>
    ⟨number hdr,number last,number entity⟩

theorem parseRangeNumbers (hdr : Bytes) : httpDlHeaderParseRange hdr =
    rangeNumbers (if httpDlStrncasecmp hdr (ascii "bytes") then (hdr.drop 5).dropWhile isLws else hdr) := by
  unfold httpDlHeaderParseRange rangeNumbers pastNumber
  dsimp only
  generalize (if httpDlStrncasecmp hdr (ascii "bytes") = true then (hdr.drop 5).dropWhile isLws else hdr) = value
  split
  · rfl
  · split
    · rfl
    · rw [Option.bind_some]
      split <;> rfl

section reads
variable {l : Bytes}

theorem stepKept {c : Byte} {rest : Bytes} (cr : (13 : Byte) ∈ c :: rest) (other : c ≠ 13) : (13 : Byte) ∈ rest := by
  simpa [Ne.symm other] using cr

theorem digitKept (cr : (13 : Byte) ∈ l) : ∃ b rest,l.dropWhile isdigit = b :: rest ∧ (13 : Byte) ∈ b :: rest := by
  have stays := (dropWhileStops (t := []) cr (show isdigit 13 = false by decide)).2
  cases past : l.dropWhile isdigit with
  | nil => simp [past] at stays
  | cons b rest => exact ⟨b,rest,rfl,past ▸ stays⟩

theorem pastNumberReads {mark : Byte} (other : mark ≠ 13) (cr : (13 : Byte) ∈ l) : Meets (pastNumberChecked mark l) fun next =>
    next = pastNumber mark l ∧ ∀ behind,next = some behind → (13 : Byte) ∈ behind := by
  obtain ⟨b,rest,past,stays⟩ := digitKept cr
  simp only [pastNumberChecked,pastNumber,past]
  by_cases here : b = mark
  · have tail := stepKept stays (here ▸ other)
    cases rest with
    | nil => simp at tail
    | cons c rest => simp_all [startsDigit]
  · simp [past,here]

theorem numbersReads (cr : (13 : Byte) ∈ l) : Meets (rangeNumbersChecked l) fun range => range = rangeNumbers l := by
  cases l with
  | nil => simp at cr
  | cons b rest =>
    cases digit : isdigit b with
    | false => simp [rangeNumbersChecked,rangeNumbers,startsDigit,digit]
    | true =>
      obtain ⟨next,ends,same,stays⟩ := pastNumberReads (show (45 : Byte) ≠ 13 by decide) cr
      unfold rangeNumbersChecked rangeNumbers
      rw [← same]
      cases next with
      | none => simp [digit,startsDigit,ends]
      | some last =>
        obtain ⟨next,ends',same,stays⟩ := pastNumberReads (show (47 : Byte) ≠ 13 by decide) (stays last rfl)
        cases next with
        | none => simp [digit,startsDigit,ends,ends',← same]
        | some entity =>
          obtain ⟨c,more,past,-⟩ := digitKept (stays entity rfl)
          simp [digit,startsDigit,ends,ends',← same,past]

theorem strncasecmpReads {pat : Bytes} (clean : ∀ c ∈ pat,tolower c ≠ 13) (cr : (13 : Byte) ∈ l) :
    Meets (httpDlStrncasecmpChecked l pat) fun same =>
      same = httpDlStrncasecmp l pat ∧ (same = true → (13 : Byte) ∈ l.drop pat.length) := by
  induction pat generalizing l with
  | nil => simpa [httpDlStrncasecmpChecked,httpDlStrncasecmp] using cr
  | cons c pat ih =>
    cases l with
    | nil => simp at cr
    | cons b l =>
      by_cases here : tolower b = tolower c
      · have other : b ≠ 13 := by
          rintro rfl
          exact clean c List.mem_cons_self here.symm
        simpa [httpDlStrncasecmpChecked,httpDlStrncasecmp,here] using
          ih (fun d mem => clean d (List.mem_cons_of_mem _ mem)) (stepKept cr other)
      · simp [httpDlStrncasecmpChecked,httpDlStrncasecmp,here]

theorem rangeReads (cr : (13 : Byte) ∈ l) :
    Meets (httpDlHeaderParseRangeChecked l) fun range => range = httpDlHeaderParseRange l := by
  obtain ⟨same,ends,told,stays⟩ := strncasecmpReads (lowerClean (show ((ascii "bytes").map tolower).all (fun c => c != 13) = true by decide)) cr
  rw [parseRangeNumbers]
  cases same with
  | false => simpa [httpDlHeaderParseRangeChecked,ends,← told] using numbersReads cr
  | true =>
    have behind := (dropWhileStops (t := []) (stays rfl) (show isLws 13 = false by decide)).2
    cases past : (l.drop 5).dropWhile isLws with
    | nil =>
      have five : (ascii "bytes").length = 5 := by decide
      simp [five,past] at behind
    | cons b rest =>
      have five : (ascii "bytes").length = 5 := by decide
      rw [five,past] at behind
      by_cases nul : b = 0
      · simp [httpDlHeaderParseRangeChecked,ends,← told,past,nul,rangeNumbers,startsDigit,show isdigit 0 = false by decide]
      · simpa [httpDlHeaderParseRangeChecked,ends,← told,past,nul] using numbersReads behind

theorem matchReads {name : Bytes} (clean : ∀ c ∈ name,tolower c ≠ 13) (cr : (13 : Byte) ∈ l) :
    Meets (matchNameChecked name l) fun rest => rest = matchName name l ∧ ∀ behind,rest = some behind → (13 : Byte) ∈ behind := by
  induction name generalizing l with
  | nil => simpa [matchNameChecked,matchName] using cr
  | cons c name ih =>
    cases l with
    | nil => simp at cr
    | cons b l =>
      by_cases here : tolower c = tolower b
      · have other : b ≠ 13 := by
          rintro rfl
          exact clean c List.mem_cons_self here
        simpa [matchNameChecked,matchName,here] using ih (fun d mem => clean d (List.mem_cons_of_mem _ mem)) (stepKept cr other)
      · simp [matchNameChecked,matchName,here]

theorem processReads (cr : (13 : Byte) ∈ l) :
    rangeProcessChecked l = .ok (httpDlHeaderProcess l contentRangeName httpDlHeaderParseRange) := by
  obtain ⟨rest,ends,told,stays⟩ := matchReads (lowerClean (show (contentRangeName.map tolower).all (fun c => c != 13) = true by decide)) cr
  unfold rangeProcessChecked httpDlHeaderProcess
  rw [← told]
  cases rest with
  | none => rw [ends]; rfl
  | some rest =>
    cases rest with
    | nil => simpa using stays [] rfl
    | cons b rest =>
      by_cases colon : b = 58
      · subst colon
        have inside := stepKept (stays _ rfl) (by decide)
        have behind := (dropWhileStops (t := []) inside (show isLws 13 = false by decide)).2
        have value : skip isLws rest = .ok (rest.dropWhile isLws) := by
          obtain ⟨_,same,rfl⟩ := (@meetsSkip isLws rest fun value => value = rest.dropWhile isLws).mpr
            ⟨List.ne_nil_of_mem behind,rfl⟩
          exact same
        obtain ⟨range,read,rfl⟩ := rangeReads behind
        cases found : httpDlHeaderParseRange (rest.dropWhile isLws) <;>
          simp [ends,deref,value,read,found,bind,Except.bind,pure,Except.pure]
      · simp [ends,deref,colon,bind,Except.bind,pure,Except.pure]

end reads

section grammar
variable {hdr value : Bytes}

theorem sameCaseCons {a b : Byte} {s t : Bytes} : SameCase (a :: s) (b :: t) ↔ tolower a = tolower b ∧ SameCase s t := by
  simp [SameCase]

theorem strncasecmpIff (s pat : Bytes) : httpDlStrncasecmp s pat = true ↔ SameCase (s.take pat.length) pat := by
  induction pat generalizing s with
  | nil => simp [httpDlStrncasecmp,SameCase]
  | cons c pat ih =>
    cases s with
    | nil => simp [httpDlStrncasecmp,SameCase]
    | cons b s => simp [httpDlStrncasecmp,sameCaseCons,ih]

theorem matchNameIff (name header rest : Bytes) :
    matchName name header = some rest ↔ ∃ word,header = word ++ rest ∧ SameCase word name := by
  induction name generalizing header with
  | nil => simp [matchName,SameCase]
  | cons c name ih =>
    cases header with
    | nil => simp [matchName,SameCase]
    | cons b header =>
      simp only [matchName]
      constructor
      · intro found
        split at found <;> try contradiction
        rename_i here
        obtain ⟨word,rfl,same⟩ := (ih header).mp found
        exact ⟨b :: word,rfl,sameCaseCons.mpr ⟨here.symm,same⟩⟩
      · rintro ⟨word,split_,same⟩
        cases word with
        | nil => simp [SameCase] at same
        | cons d word =>
          obtain ⟨rfl,rfl⟩ := List.cons.inj split_
          obtain ⟨here,same⟩ := sameCaseCons.mp same
          rw [if_pos here.symm]
          exact (ih _).mpr ⟨word,rfl,same⟩

theorem pastNumberIff {mark : Byte} (other : isdigit mark = false) (next : Bytes) : pastNumber mark hdr = some next ↔
    ∃ digits,hdr = digits ++ mark :: next ∧ (∀ b ∈ digits,isdigit b = true) ∧ startsDigit next = true := by
  unfold pastNumber
  dsimp only
  constructor
  · intro found
    split at found <;> try contradiction
    rename_i good
    obtain ⟨here,starts⟩ := not_or.mp good
    obtain ⟨rest,past⟩ : ∃ rest,hdr.dropWhile isdigit = mark :: rest := List.head?_eq_some_iff.mp (not_not.mp here)
    rw [past] at found starts
    cases Option.some.inj found
    refine ⟨hdr.takeWhile isdigit,?_,fun b mem => List.mem_takeWhile_imp mem,not_not.mp starts⟩
    calc hdr = hdr.takeWhile isdigit ++ hdr.dropWhile isdigit := (List.takeWhile_append_dropWhile ..).symm
      _ = hdr.takeWhile isdigit ++ mark :: rest := by rw [past]
  · rintro ⟨digits,rfl,all,starts⟩
    have past : (digits ++ mark :: next).dropWhile isdigit = mark :: next := by
      rw [List.dropWhile_append_of_pos all]
      exact List.dropWhile_cons_of_neg (by simp [other])
    simp [past,starts]

theorem startsDigits {digits : Bytes} (some_ : Digits digits) (behind : Bytes) : startsDigit (digits ++ behind) = true := by
  cases digits with
  | nil => exact absurd rfl some_.1
  | cons b digits => simpa [startsDigit] using some_.2 b List.mem_cons_self

theorem someDigits {digits behind : Bytes} (all : ∀ b ∈ digits,isdigit b = true) (starts : startsDigit (digits ++ behind) = true)
    (stop : startsDigit behind = false) : Digits digits := by
  refine ⟨?_,all⟩
  rintro rfl
  simp [stop] at starts

theorem rangeNumbersFound {range : Range} (found : rangeNumbers hdr = some range) : ∃ first last entity behind,
    hdr = first ++ 45 :: (last ++ 47 :: (entity ++ behind)) ∧ Digits first ∧ Digits last ∧ Digits entity := by
  unfold rangeNumbers at found
  split at found <;> try contradiction
  rename_i starts
  obtain ⟨next,past,found⟩ := Option.bind_eq_some_iff.mp found
  obtain ⟨next',past',-⟩ := Option.map_eq_some_iff.mp found
  obtain ⟨first,rfl,all,startsLast⟩ := (pastNumberIff (by decide) next).mp past
  obtain ⟨last,rfl,allLast,startsEntity⟩ := (pastNumberIff (by decide) next').mp past'
  refine ⟨first,last,next'.takeWhile isdigit,next'.dropWhile isdigit,by simp,
    someDigits all (not_not.mp starts) rfl,someDigits allLast startsLast rfl,?_,fun b mem => List.mem_takeWhile_imp mem⟩
  cases next' with
  | nil => simp [startsDigit] at startsEntity
  | cons b next' =>
    have digit : isdigit b = true := by simpa [startsDigit] using startsEntity
    simp [digit]

theorem rangeNumbersRead {first last : Bytes} (value : Bytes) (someFirst : Digits first) (someLast : Digits last)
    (starts : startsDigit value = true) : rangeNumbers (first ++ 45 :: (last ++ 47 :: value)) =
      some ⟨number (first ++ 45 :: (last ++ 47 :: value)),number (last ++ 47 :: value),number value⟩ := by
  have past := (@pastNumberIff (first ++ 45 :: (last ++ 47 :: value)) 45 (by decide) (last ++ 47 :: value)).mpr
    ⟨first,rfl,someFirst.2,startsDigits someLast _⟩
  have past' := (@pastNumberIff (last ++ 47 :: value) 47 (by decide) value).mpr ⟨last,rfl,someLast.2,starts⟩
  simp [rangeNumbers,startsDigits someFirst,past,past']

theorem digitPlain : ∀ b : Byte,isdigit b = true → tolower b ≠ tolower 98 ∧ isLws b = false := everyByte (by decide +kernel)

theorem wordPlain : ∀ b : Byte,tolower b = tolower 98 → isLws b = false := everyByte (by decide +kernel)

theorem unitSkipped {unit : Bytes} (U : RangeUnit unit) (starts : startsDigit value = true) :
    (if httpDlStrncasecmp (unit ++ value) (ascii "bytes") then ((unit ++ value).drop 5).dropWhile isLws
      else unit ++ value) = value := by
  have five : (ascii "bytes").length = 5 := by decide
  rcases U with rfl | ⟨word,blanks,rfl,same,blank⟩
  · cases value with
    | nil => simp [startsDigit] at starts
    | cons b value =>
      have other : ¬SameCase ((b :: value).take 5) (ascii "bytes") := by
        have digit : isdigit b = true := by simpa [startsDigit] using starts
        intro same
        exact (digitPlain b digit).1 (sameCaseCons.mp (show SameCase (b :: value.take 4) (98 :: ascii "ytes") from same)).1
      rw [List.nil_append,if_neg (by rwa [strncasecmpIff,five])]
  · have size : word.length = 5 := by simpa [five] using congrArg List.length same
    have word_ : (word ++ (blanks ++ value)).take 5 = word := by rw [← size,List.take_left]
    have behind : (word ++ (blanks ++ value)).drop 5 = blanks ++ value := by rw [← size,List.drop_left]
    have stop : value.dropWhile isLws = value := by
      cases value with
      | nil => rfl
      | cons b value =>
        have digit : isdigit b = true := by simpa [startsDigit] using starts
        exact List.dropWhile_cons_of_neg (by simp [(digitPlain b digit).2])
    rw [List.append_assoc,if_pos (by rwa [strncasecmpIff,five,word_]),behind,List.dropWhile_append_of_pos blank,stop]

theorem startsPlain (starts : StartsWithRange value) : value.dropWhile isLws = value := by
  obtain ⟨unit,first,last,entity,behind,rfl,U,someFirst,-⟩ := starts
  rcases U with rfl | ⟨word,blanks,rfl,same,-⟩
  · cases first with
    | nil => exact absurd rfl someFirst.1
    | cons b first => exact List.dropWhile_cons_of_neg (by simp [(digitPlain b (someFirst.2 b List.mem_cons_self)).2])
  · cases word with
    | nil => exact absurd same (by simp [SameCase,ascii])
    | cons b word =>
      have first := (sameCaseCons.mp (show SameCase (b :: word) (98 :: ascii "ytes") from same)).1
      exact List.dropWhile_cons_of_neg (by simp [wordPlain b first])

theorem parseRangeIff (value : Bytes) : (∃ range,httpDlHeaderParseRange value = some range) ↔ StartsWithRange value := by
  simp only [parseRangeNumbers]
  constructor
  · rintro ⟨range,found⟩
    split at found
    · rename_i word
      obtain ⟨first,last,entity,behind,same,D⟩ := rangeNumbersFound found
      have word := (strncasecmpIff value (ascii "bytes")).mp word
      refine ⟨value.take 5 ++ (value.drop 5).takeWhile isLws,first,last,entity,behind,?_,
        .inr ⟨_,_,rfl,word,fun b mem => List.mem_takeWhile_imp mem⟩,D⟩
      calc value = value.take 5 ++ ((value.drop 5).takeWhile isLws ++ (value.drop 5).dropWhile isLws) := by simp
        _ = _ := by rw [same]; simp [rangeText]
    · obtain ⟨first,last,entity,behind,same,D⟩ := rangeNumbersFound found
      exact ⟨[],first,last,entity,behind,by simp [rangeText,same],.inl rfl,D⟩
  · rintro ⟨unit,first,last,entity,behind,rfl,U,someFirst,someLast,someEntity⟩
    have text : rangeText unit first last entity ++ behind = unit ++ (first ++ 45 :: (last ++ 47 :: (entity ++ behind))) := by
      simp [rangeText]
    rw [text,unitSkipped U (startsDigits someFirst _)]
    exact ⟨_,rangeNumbersRead _ someFirst someLast (startsDigits someEntity behind)⟩

theorem processIff (header : Bytes) : (∃ range,httpDlHeaderProcess header contentRangeName httpDlHeaderParseRange = .ok range) ↔
    ∃ name gap value,header = name ++ 58 :: (gap ++ value) ∧ SameCase name contentRangeName ∧ Blanks gap ∧
      StartsWithRange value := by
  unfold httpDlHeaderProcess
  constructor
  · rintro ⟨range,found⟩
    split at found <;> try contradiction
    rename_i rest named
    obtain ⟨name,rfl,same⟩ := (matchNameIff _ _ _).mp named
    split at found <;> try contradiction
    rename_i parsed
    exact ⟨name,rest.takeWhile isLws,rest.dropWhile isLws,by simp,same,fun b mem => List.mem_takeWhile_imp mem,
      (parseRangeIff _).mp ⟨_,parsed⟩⟩
  · rintro ⟨name,gap,value,rfl,same,blank,starts⟩
    have named := (matchNameIff contentRangeName (name ++ 58 :: (gap ++ value)) _).mpr ⟨name,rfl,same⟩
    obtain ⟨range,parsed⟩ := (parseRangeIff value).mpr starts
    have past : (gap ++ value).dropWhile isLws = value := by rw [List.dropWhile_append_of_pos blank,startsPlain starts]
    exact ⟨range,by simp [named,past,parsed]⟩

theorem numberEnds {digits behind : Bytes} (all : ∀ b ∈ digits,isdigit b = true) (stop : startsDigit behind = false) :
    number (digits ++ behind) = number digits := by
  have none_ : behind.takeWhile isdigit = [] := by
    cases behind with
    | nil => rfl
    | cons b behind => exact List.takeWhile_cons_of_neg (by simpa [startsDigit] using stop)
  unfold number
  rw [List.takeWhile_append_of_pos all,none_,List.append_nil,List.takeWhile_eq_self_iff.mpr all]

theorem numberFits {digits : Bytes} (all : ∀ b ∈ digits,isdigit b = true) (fits : numeralValue digits < 2 ^ 31) :
    number digits = numeralValue digits := by
  unfold number
  rw [List.takeWhile_eq_self_iff.mpr all]
  unfold numeralValue at fits ⊢
  induction digits using List.reverseRecOn with
  | nil => rfl
  | append_singleton digits b ih =>
    rw [List.foldl_append,List.foldl_cons,List.foldl_nil] at fits ⊢
    rw [List.foldl_append,List.foldl_cons,List.foldl_nil]
    have last := all b (by simp)
    have front := ih (fun c mem => all c (by simp [mem])) (by omega)
    have least := digitLeast last
    rw [front]
    unfold long digit
    rw [Int.bmod_eq_of_le (by omega) (by omega)]
    omega

theorem numeralNumber {n : Nat} (fits : n < 2 ^ 31) {behind : Bytes} (stop : startsDigit behind = false) :
    number (numeral 10 n ++ behind) = n := by
  rw [numberEnds (numeralIsDigits n) stop,numberFits (numeralIsDigits n) (by rwa [numeralRead]),numeralRead]

theorem numeralDigits (n : Nat) : Digits (numeral 10 n) := ⟨numeralSome 10 n,numeralIsDigits n⟩

end grammar

theorem sameCaseClean {s t : Bytes} (same : SameCase s t) (clean : ∀ c ∈ t,tolower c ≠ 13) : (13 : Byte) ∉ s := by
  intro mem
  have low : tolower 13 ∈ s.map tolower := List.mem_map_of_mem mem
  rw [same] at low
  obtain ⟨c,inside,lower⟩ := List.mem_map.mp low
  exact clean c inside lower

theorem digitsNoReturn {digits : Bytes} (all : ∀ b ∈ digits,isdigit b = true) : (13 : Byte) ∉ digits := fun mem =>
  absurd (all 13 mem) (by decide)

theorem blanksClean {gap : Bytes} (blank : Blanks gap) : (13 : Byte) ∉ gap := fun mem => absurd (blank 13 mem) (by decide)

theorem unitClean {unit : Bytes} (U : RangeUnit unit) : (13 : Byte) ∉ unit := by
  rcases U with rfl | ⟨word,blanks,rfl,same,blank⟩
  · simp
  · simp [sameCaseClean same (lowerClean (by decide)),blanksClean blank]

theorem frontInside {front behind line rest : Bytes} (clean : (13 : Byte) ∉ front)
    (same : line ++ 13 :: rest = front ++ behind) : ∃ more,line = front ++ more := by
  rcases List.append_eq_append_iff.mp same with ⟨more,rfl,last⟩ | ⟨more,rfl,-⟩
  · cases more with
    | nil => exact ⟨[],by simp⟩
    | cons c more =>
      cases (List.cons.inj last).1
      simp at clean
  · exact ⟨more,rfl⟩

theorem lineStarts {line : Bytes} : (∃ name gap value,line ++ crlf = name ++ 58 :: (gap ++ value) ∧
      SameCase name contentRangeName ∧ Blanks gap ∧ StartsWithRange value) ↔
    ∃ name gap value,line = name ++ 58 :: (gap ++ value) ∧ SameCase name contentRangeName ∧ Blanks gap ∧
      StartsWithRange value := by
  constructor
  · rintro ⟨name,gap,value,same,named,blank,unit,first,last,entity,behind,rfl,U,someFirst,someLast,someEntity⟩
    have clean : (13 : Byte) ∉ name ++ 58 :: (gap ++ rangeText unit first last entity) := by
      simp [rangeText,sameCaseClean named (lowerClean (by decide)),blanksClean blank,unitClean U,digitsNoReturn someFirst.2,
        digitsNoReturn someLast.2,digitsNoReturn someEntity.2]
    obtain ⟨more,rfl⟩ := @frontInside _ behind _ _ clean (same.trans (by simp))
    exact ⟨name,gap,rangeText unit first last entity ++ more,by simp,named,blank,unit,first,last,entity,more,rfl,U,
      someFirst,someLast,someEntity⟩
  · rintro ⟨name,gap,value,rfl,named,blank,unit,first,last,entity,behind,rfl,rest⟩
    exact ⟨name,gap,_,by simp; rfl,named,blank,unit,first,last,entity,behind ++ crlf,by simp,rest⟩

theorem rangeLineRead {name gap unit behind : Bytes} {a b n : Nat} (same : SameCase name contentRangeName) (blank : Blanks gap)
    (U : RangeUnit unit) (fitsA : a < 2 ^ 31) (fitsB : b < 2 ^ 31) (fitsN : n < 2 ^ 31) (stop : startsDigit behind = false) :
    httpDlHeaderProcess (rangeLine name gap unit a b n ++ behind) contentRangeName httpDlHeaderParseRange = .ok ⟨a,b,n⟩ := by
  have text : rangeLine name gap unit a b n ++ behind = name ++ 58 :: (gap ++ (unit ++ (numeral 10 a ++ 45 ::
      (numeral 10 b ++ 47 :: (numeral 10 n ++ behind))))) := by
    simp [rangeLine,rangeText]
  have starts : StartsWithRange (unit ++ (numeral 10 a ++ 45 :: (numeral 10 b ++ 47 :: (numeral 10 n ++ behind)))) :=
    ⟨unit,_,_,_,behind,by simp [rangeText],U,numeralDigits a,numeralDigits b,numeralDigits n⟩
  have past : (gap ++ (unit ++ (numeral 10 a ++ 45 :: (numeral 10 b ++ 47 :: (numeral 10 n ++ behind))))).dropWhile isLws =
      unit ++ (numeral 10 a ++ 45 :: (numeral 10 b ++ 47 :: (numeral 10 n ++ behind))) := by
    rw [List.dropWhile_append_of_pos blank,startsPlain starts]
  have named := (matchNameIff contentRangeName (rangeLine name gap unit a b n ++ behind) _).mpr ⟨name,text,same⟩
  have parsed : httpDlHeaderParseRange (unit ++ (numeral 10 a ++ 45 :: (numeral 10 b ++ 47 :: (numeral 10 n ++ behind)))) =
      some ⟨a,b,n⟩ := by
    rw [parseRangeNumbers,unitSkipped U (startsDigits (numeralDigits a) _),
      rangeNumbersRead _ (numeralDigits a) (numeralDigits b) (startsDigits (numeralDigits n) _),
      numeralNumber fitsA rfl,numeralNumber fitsB rfl,numeralNumber fitsN stop]
  simp [httpDlHeaderProcess,named,past,parsed]

/-- A rendered range is read back; a line is taken exactly when it is of the grammar, and is not read beyond its end. -/
theorem contentRangeRead :
    (∀ {a b n : Nat} {name gap unit : Bytes},a < 2 ^ 31 → b < 2 ^ 31 → n < 2 ^ 31 → SameCase name contentRangeName →
      Blanks gap → RangeUnit unit → ∀ behind,
      httpDlHeaderProcess (rangeLine name gap unit a b n ++ (crlf ++ behind)) contentRangeName httpDlHeaderParseRange =
        .ok ⟨a,b,n⟩) ∧
    ∀ line behind : Bytes,
      rangeProcessChecked (line ++ crlf) =
        .ok (httpDlHeaderProcess (line ++ (crlf ++ behind)) contentRangeName httpDlHeaderParseRange) ∧
      ((∃ range,httpDlHeaderProcess (line ++ (crlf ++ behind)) contentRangeName httpDlHeaderParseRange = .ok range) ↔
        ∃ name gap value,line = name ++ 58 :: (gap ++ value) ∧ SameCase name contentRangeName ∧ Blanks gap ∧
          StartsWithRange value) := by
  refine ⟨fun fitsA fitsB fitsN same blank U behind => rangeLineRead same blank U fitsA fitsB fitsN rfl,
    fun line behind => ?_⟩
  have cr : (13 : Byte) ∈ line ++ crlf := by simp [crlf]
  have inside := processStops contentRangeName behind cr (lowerClean (by decide)) fun m cr => rangeStops behind cr
  rw [← List.append_assoc,inside,processReads cr,processIff,lineStarts]
  exact ⟨rfl,Iff.rfl⟩

theorem contentRangeReadShort : (0 < 2 ^ 31 ∧ 4 < 2 ^ 31 ∧ 5 < 2 ^ 31) ∧
    httpDlHeaderProcess (rangeLine (ascii "content-RANGE") (ascii " ") (ascii "Bytes \t") 0 4 5 ++ (crlf ++ [])) contentRangeName
      httpDlHeaderParseRange = .ok ⟨0,4,5⟩ :=
  ⟨by decide,contentRangeRead.1 (by decide) (by decide) (by decide) (by decide +kernel) (by decide +kernel)
    (.inr ⟨ascii "Bytes",ascii " \t",by decide +kernel,by decide +kernel,by decide +kernel⟩) []⟩

end MipsElfExec.Download

import MipsElfExec.SnoopClient.FileId

/-! The times of a request for a part of an mp4 file: a parameter of the query goes through two small buffers before it
is read as a number of milliseconds. -/
namespace MipsElfExec.Streaming
open CString Access SnoopClient

def ngxStrlcasestrn (name : Bytes) : Bytes → Option Nat
  | [] => none
  | b :: s =>
    if (b :: s).length ≤ name.length then none
    else if ((b :: s).take name.length).map tolower = name.map tolower then some 0
    else (ngxStrlcasestrn name s).map (· + 1)

-- Each round goes on behind the place that was found, so that there are no more rounds than bytes.
def argLoop (name args : Bytes) : Nat → Nat → Option Bytes
  | 0,_ => none
  | rounds + 1,p =>
    match ngxStrlcasestrn name (args.drop p) with
    | none => none
    | some k =>
      let p := p + k
      if (p = 0 ∨ args[p - 1]? = some 38) ∧ args[p + name.length]? = some 61 then
        some ((args.drop (p + name.length + 1)).takeWhile (· ≠ 38))
      else argLoop name args rounds (p + 1)

def ngxHttpArg (args name : Bytes) : Option Bytes := argLoop name args args.length 0

def ngxInt (n : Int) : Int := n.bmod (2 ^ 32)

def scratchLen : Nat := 32

def wholePart (tempStr : Bytes) (q : Nat) : Bytes → Checked (Option (Bytes × Bytes))
  | [] => .error .read
  | c :: p =>
    if c = 0 ∨ c = 46 then .ok (some (tempStr,c :: p))
    else if isdigit c = false then .ok none
    else do wholePart (← poke tempStr q c) (q + 1) p

def decimalPart (tempStr : Bytes) (q b i : Nat) : Bytes → Checked (Option (Nat × Nat))
  | [] => .error .read
  | c :: p =>
    if c ≠ 0 ∧ 0 < i then
      if isdigit c = false then .ok none
      else do decimalPart (← poke tempStr q c) (q + 1) (10 * b + (c.toNat - 48)) (i - 1) p
    else .ok (some (b,i))

-- The test between the two loops looks at the pointer, so that it never holds.
def strToMp4Para (str : Bytes) : Checked Int := do
  let some (tempStr,p) ← wholePart (filled scratchLen []) 0 str | return 0
  let a ← if 0 ∈ tempStr then pure (atoiSigned (cstr tempStr)) else .error .read
  let ret := ngxInt (a * 1000)
  let some (b,i) ← decimalPart (filled scratchLen []) 0 0 3 (p.drop 1) | return 0
  return ngxInt (b * 10 ^ i + ret)

def copyValue (value : Bytes) : Checked Bytes :=
  if value.length ≤ scratchLen then .ok (filled scratchLen value) else .error .write

-- `see` is what may be read of the copy.
def mp4Para (see : Bytes → Bytes) (value : Bytes) : Checked Int := do strToMp4Para (see (← copyValue value))

def startValue (args : Bytes) : Option Bytes := (ngxHttpArg args (ascii "start")).or (ngxHttpArg args (ascii "ts_start"))
def endValue (args : Bytes) : Option Bytes := (ngxHttpArg args (ascii "end")).or (ngxHttpArg args (ascii "ts_end"))

def startTime (see : Bytes → Bytes) (failed : Bytes → Bool) : Option Bytes → Checked Int
  | none => .ok (-1)
  | some value => do
    let start ← mp4Para see value
    return if failed value then -1 else if start = 0 then start + 100 else start

def endTime (see : Bytes → Bytes) (failed : Bytes → Bool) (start : Int) : Option Bytes → Checked (Int × Int)
  | none => .ok (start,0)
  | some value => do
    let fin ← mp4Para see value
    let fin := if failed value then -1 else fin
    if 0 < fin then
      let start := max start 0
      return (start,if start < fin then fin - start else 0)
    else return (start,0)

def ngxHttpMp4Handler (see : Bytes → Bytes) (failed : Bytes → Bool) (uri args : Bytes) : Checked (Int × Int) :=
  if args = [] ∨ (strstr uri (ascii "ipad_file=_")).isSome then .ok (-1,0)
  else do
    let start ← startTime see failed (startValue args)
    endTime see failed start (endValue args)

def upToNul (copy : Bytes) : Bytes := copy.take ((cstr copy).length + 1)

def Contained (failed : Bytes → Bool) (uri args : Bytes) : Prop := Safe (ngxHttpMp4Handler upToNul failed uri args)

def timeValues (uri args : Bytes) : List Bytes :=
  if args = [] ∨ (strstr uri (ascii "ipad_file=_")).isSome then []
  else (startValue args).toList ++ (endValue args).toList

def pointed (frac : Bytes) (size : Nat) : Prop := size < scratchLen ∨ 4 ≤ frac.length ∨ ∃ c ∈ frac,isdigit c = false

def Closed (value : Bytes) : Prop := value.length ≤ scratchLen ∧
  ∃ b frac,(cstr value).dropWhile isdigit = b :: frac ∧ (b = 46 → pointed frac (cstr value).length)

def millis (decimals : Bytes) : Nat := numeralValue (decimals.take 3) * 10 ^ (3 - (decimals.take 3).length)

structure TimeForm (value whole decimals : Bytes) : Prop where
  digits : ∀ b ∈ whole ++ decimals,isdigit b = true
  shape : value = whole ∧ decimals = [] ∨ value = whole ++ 46 :: decimals
  room : value.length < scratchLen
  small : numeralValue whole * 1000 + 999 < 2 ^ 31

section scratch
variable {pre whole cur : Bytes}

theorem digitPlain {c : Byte} (digit : isdigit c = true) : c ≠ 0 ∧ c ≠ 46 := by
  constructor <;> rintro rfl <;> cases digit

theorem wholeRun (digits : ∀ c ∈ whole,isdigit c = true) (room : pre.length + whole.length ≤ scratchLen) (p : Bytes) :
    wholePart (filled scratchLen pre) pre.length (whole ++ p) =
      wholePart (filled scratchLen (pre ++ whole)) (pre.length + whole.length) p := by
  induction whole generalizing pre with
  | nil => simp
  | cons c whole ih =>
    rw [List.length_cons] at room
    have digit := digits c List.mem_cons_self
    obtain ⟨nul,point⟩ := digitPlain digit
    have next := @ih (pre ++ [c]) (fun b mem => digits b (List.mem_cons_of_mem _ mem)) (by simp; omega)
    rw [List.length_append,List.length_singleton] at next
    rw [List.cons_append,wholePart,if_neg (not_or.mpr ⟨nul,point⟩),if_neg (by simp [digit]),pokeNext (by omega),
      if_pos (by omega)]
    simpa [bind,Except.bind,Nat.add_assoc,Nat.add_comm 1] using next

theorem decimalSafe {b i : Nat} (room : pre.length + i ≤ scratchLen) :
    Safe (decimalPart (filled scratchLen pre) pre.length b i cur) ↔ ((cur.takeWhile isdigit).take i).length < cur.length := by
  induction cur generalizing pre b i with
  | nil => simp [decimalPart,Safe]
  | cons c cur ih =>
    rw [decimalPart]
    rcases Nat.eq_zero_or_pos i with rfl | some_
    · simp [Safe]
    · cases digit : isdigit c with
      | true =>
        obtain ⟨nul,-⟩ := digitPlain digit
        have next := @ih (pre ++ [c]) (10 * b + (c.toNat - 48)) (i - 1) (by simp; omega)
        rw [List.length_append,List.length_singleton] at next
        rw [if_pos ⟨nul,some_⟩,if_neg (by simp),pokeNext (by omega),if_pos (by omega),Safe,meetsBind,meetsOk]
        refine next.trans ?_
        obtain ⟨left,rfl⟩ := Nat.exists_eq_add_of_lt some_
        simp [digit]
      | false =>
        simp only [Safe,if_true]
        split <;> simp [digit]

theorem decimalRun {decimals : Bytes} {b i : Nat} (digits : ∀ c ∈ decimals,isdigit c = true)
    (room : pre.length + i ≤ scratchLen) (more : Bytes) :
    decimalPart (filled scratchLen pre) pre.length b i (decimals ++ 0 :: more) =
      .ok (some ((decimals.take i).foldl (fun n c => 10 * n + (c.toNat - 48)) b,i - (decimals.take i).length)) := by
  induction decimals generalizing pre b i with
  | nil => simp [decimalPart]
  | cons c decimals ih =>
    rcases Nat.eq_zero_or_pos i with rfl | some_
    · simp [decimalPart]
    · have digit := digits c List.mem_cons_self
      obtain ⟨nul,-⟩ := digitPlain digit
      have next := @ih (pre ++ [c]) (10 * b + (c.toNat - 48)) (i - 1) (fun b mem => digits b (List.mem_cons_of_mem _ mem))
        (by simp; omega)
      rw [List.length_append,List.length_singleton] at next
      rw [List.cons_append,decimalPart,if_pos ⟨nul,some_⟩,if_neg (by simp [digit]),pokeNext (by omega),if_pos (by omega)]
      obtain ⟨left,rfl⟩ := Nat.exists_eq_add_of_lt some_
      simpa [bind,Except.bind] using next

theorem wholeFrom (digits : ∀ c ∈ whole,isdigit c = true) (room : whole.length ≤ scratchLen) (p : Bytes) :
    wholePart (filled scratchLen []) 0 (whole ++ p) = wholePart (filled scratchLen whole) whole.length p := by
  have run := @wholeRun [] whole digits (by simpa using room) p
  rwa [List.length_nil,Nat.zero_add,List.nil_append] at run

theorem decimalFrom {decimals : Bytes} (digits : ∀ c ∈ decimals,isdigit c = true) (more : Bytes) :
    decimalPart (filled scratchLen []) 0 0 3 (decimals ++ 0 :: more) =
      .ok (some (numeralValue (decimals.take 3),3 - (decimals.take 3).length)) :=
  @decimalRun [] decimals 0 3 digits (by decide) more

theorem tempRead (digits : ∀ c ∈ whole,isdigit c = true) (room : whole.length < scratchLen) :
    0 ∈ filled scratchLen whole ∧ cstr (filled scratchLen whole) = whole := by
  obtain ⟨rest,shape⟩ := filledNul room
  rw [shape]
  exact ⟨List.mem_append_right _ List.mem_cons_self,
    cstrTerminated whole rest fun nul => absurd (digits 0 nul) (by decide)⟩

theorem paraStops {b : Byte} (digits : ∀ c ∈ whole,isdigit c = true) (room : whole.length < scratchLen)
    (stop : b = 0 ∨ b = 46) (p : Bytes) : strToMp4Para (whole ++ b :: p) = (do
      let some (d,i) ← decimalPart (filled scratchLen []) 0 0 3 p | return 0
      return ngxInt (d * 10 ^ i + ngxInt (atoiSigned whole * 1000))) := by
  obtain ⟨nul,text⟩ := tempRead digits room
  unfold strToMp4Para
  rw [wholeFrom digits (Nat.le_of_lt room),wholePart,if_pos stop]
  simp only [bind,Except.bind]
  rw [if_pos nul,text]
  rfl

theorem paraOther {b : Byte} (digits : ∀ c ∈ whole,isdigit c = true) (room : whole.length ≤ scratchLen)
    (plain : ¬(b = 0 ∨ b = 46)) (other : isdigit b = false) (p : Bytes) : strToMp4Para (whole ++ b :: p) = .ok 0 := by
  unfold strToMp4Para
  rw [wholeFrom digits room,wholePart,if_neg plain,if_pos other]
  rfl

theorem paraEnds (digits : ∀ c ∈ whole,isdigit c = true) (room : whole.length ≤ scratchLen) :
    strToMp4Para whole = .error .read := by
  have run := wholeFrom digits room []
  rw [List.append_nil] at run
  unfold strToMp4Para
  rw [run,wholePart]
  rfl

theorem paraSafe {b : Byte} (digits : ∀ c ∈ whole,isdigit c = true) (room : whole.length < scratchLen)
    (stop : b = 0 ∨ b = 46) (p : Bytes) :
    Safe (strToMp4Para (whole ++ b :: p)) ↔ ((p.takeWhile isdigit).take 3).length < p.length := by
  rw [paraStops digits room stop,← @decimalSafe [] p 0 3 (by decide)]
  constructor
  · rintro ⟨v,run,-⟩
    cases read : decimalPart (filled scratchLen []) 0 0 3 p with
    | error fault =>
      rw [read] at run
      cases run
    | ok end_ => exact ⟨end_,rfl,trivial⟩
  · rintro ⟨end_,read,-⟩
    have read : decimalPart (filled scratchLen []) 0 0 3 p = .ok end_ := read
    rw [read]
    cases end_ with
    | none => exact ⟨0,rfl,trivial⟩
    | some places => exact ⟨_,rfl,trivial⟩

end scratch

section copy
variable {value : Bytes}

theorem seen (fits : value.length ≤ scratchLen) : (cstr value).length ≤ scratchLen ∧
    upToNul (filled scratchLen value) = cstr value ++ if (cstr value).length < scratchLen then [0] else [] := by
  have short : (cstr value).length ≤ scratchLen := (cstrPrefix value).length_le.trans fits
  refine ⟨short,?_⟩
  unfold upToNul
  rw [cstrFilled]
  split
  · rename_i room
    have nul : (0 : Byte) ∈ filled scratchLen value := by
      by_contra clean
      have all := cstrOfNoNul clean
      rw [cstrFilled] at all
      have size := filledSize fits
      rw [← all] at size
      omega
    obtain ⟨rest,shape⟩ := cstrStops nul
    rw [cstrFilled] at shape
    rw [shape,List.take_append]
    simp
  · rename_i full
    have whole : cstr value = filled scratchLen value :=
      (cstrFilled scratchLen value ▸ cstrPrefix (filled scratchLen value)).eq_of_length (by rw [filledSize fits]; omega)
    rw [List.append_nil,← whole,List.take_of_length_le (by omega)]

theorem placesEnd (frac : Bytes) (size : Nat) (tail : Bytes) (behind : tail = if size < scratchLen then [0] else []) :
    (((frac ++ tail).takeWhile isdigit).take 3).length < (frac ++ tail).length ↔ pointed frac size := by
  unfold pointed
  subst behind
  split
  · rename_i room
    refine iff_of_true ?_ (.inl room)
    have few : (frac ++ [0]).takeWhile isdigit <+: frac := by
      rw [List.takeWhile_append]
      split
      · rename_i all
        simp [show isdigit 0 = false by decide]
      · exact List.takeWhile_prefix isdigit
    have few := few.length_le
    rw [List.length_take,List.length_append,List.length_singleton]
    omega
  · rename_i full
    rw [List.append_nil,List.length_take]
    have few := (List.takeWhile_prefix isdigit (l := frac)).length_le
    by_cases all : ∀ c ∈ frac,isdigit c = true
    · have same := List.takeWhile_eq_self_iff.mpr all
      have none_ : ¬∃ c ∈ frac,isdigit c = false := by
        rintro ⟨c,mem,other⟩
        exact absurd (all c mem) (by simp [other])
      rw [same]
      simp only [full,none_,false_or,or_false]
      omega
    · have less : (frac.takeWhile isdigit).length ≠ frac.length := fun same =>
        all (List.takeWhile_eq_self_iff.mp ((List.takeWhile_prefix isdigit).eq_of_length same))
      have some_ : ∃ c ∈ frac,isdigit c = false := by simpa using all
      refine iff_of_true ?_ (.inr (.inr some_))
      omega

theorem valueClosed (value : Bytes) : Safe (mp4Para upToNul value) ↔ Closed value := by
  unfold Closed mp4Para copyValue
  split
  swap
  · rename_i long_
    exact iff_of_false (meetsError _) fun closed => long_ closed.1
  rename_i fits
  obtain ⟨short,see⟩ := seen fits
  rw [Safe,meetsBind,meetsOk,see]
  have digits : ∀ c ∈ (cstr value).takeWhile isdigit,isdigit c = true := fun c mem => List.mem_takeWhile_imp mem
  have shape := List.takeWhile_append_dropWhile (p := isdigit) (l := cstr value)
  have clean := cstrNoNul value
  have stops := fun h => List.head_dropWhile_not isdigit (l := cstr value) h
  generalize (cstr value).takeWhile isdigit = whole at *
  generalize (cstr value).dropWhile isdigit = rest at *
  generalize cstr value = text at *
  subst shape
  cases rest with
  | nil =>
    rw [List.append_nil] at short ⊢
    refine iff_of_false ?_ (by simp)
    split
    · rename_i room
      exact fun safe => absurd ((paraSafe digits room (.inl rfl) []).mp safe) (by simp)
    · rw [List.append_nil,paraEnds digits short]
      exact meetsError _
  | cons b frac =>
    have other : isdigit b = false := stops (List.cons_ne_nil b frac)
    have text : b ≠ 0 := fun nul => clean (by simp [nul])
    have room : whole.length < scratchLen := by
      rw [List.length_append,List.length_cons] at short
      omega
    rw [List.append_assoc,List.cons_append]
    by_cases point : b = 46
    · have safe := paraSafe digits room (.inr point)
      refine (safe _).trans ((placesEnd frac (whole ++ b :: frac).length _ rfl).trans ?_)
      constructor
      · intro ends
        exact ⟨fits,b,frac,rfl,fun _ => ends⟩
      · rintro ⟨-,_,_,same,ends⟩
        cases same
        exact ends point
    · rw [paraOther digits (Nat.le_of_lt room) (not_or.mpr ⟨text,point⟩) other]
      exact iff_of_true ⟨0,rfl,trivial⟩ ⟨fits,b,frac,rfl,fun same => absurd same point⟩

end copy

section memory
variable {tempStr p : Bytes} {q b i : Nat}

theorem wholeMore {r : Option (Bytes × Bytes)} (more : Bytes) (run : wholePart tempStr q p = .ok r) :
    wholePart tempStr q (p ++ more) = .ok (r.map fun (text,rest) => (text,rest ++ more)) ∧ ∀ end_ ∈ r,end_.2 ≠ [] := by
  induction p generalizing tempStr q with
  | nil => cases run
  | cons c p ih =>
    rw [List.cons_append,wholePart]
    rw [wholePart] at run
    by_cases stop : c = 0 ∨ c = 46
    · rw [if_pos stop] at run ⊢
      cases run
      simp
    · rw [if_neg stop] at run ⊢
      by_cases other : isdigit c = false
      · rw [if_pos other] at run ⊢
        cases run
        simp
      · rw [if_neg other] at run ⊢
        cases put : poke tempStr q c with
        | error fault =>
          rw [put] at run
          cases run
        | ok tempStr =>
          rw [put] at run
          exact ih run

theorem decimalMore (more : Bytes) : Extends (decimalPart tempStr q b i p) (decimalPart tempStr q b i (p ++ more)) := by
  induction p generalizing tempStr q b i with
  | nil =>
    intro _ run
    cases run
  | cons c p ih =>
    rw [List.cons_append,decimalPart,decimalPart]
    split
    · split
      · exact extendsRefl _
      · exact extendsBind (extendsRefl (poke tempStr q c)) fun _ => ih
    · exact extendsRefl _

theorem paraMore {str : Bytes} {v : Int} (more : Bytes) (run : strToMp4Para str = .ok v) :
    strToMp4Para (str ++ more) = .ok v := by
  unfold strToMp4Para at run ⊢
  cases first : wholePart (filled scratchLen []) 0 str with
  | error fault =>
    rw [first] at run
    cases run
  | ok end_ =>
    obtain ⟨same,some_⟩ := wholeMore more first
    rw [first] at run
    rw [same]
    cases end_ with
    | none => exact run
    | some end_ =>
      obtain ⟨text,rest⟩ := end_
      cases rest with
      | nil => exact absurd rfl (some_ _ rfl)
      | cons c rest =>
        by_cases nul : 0 ∈ text
        · have behind : Extends (decimalPart (filled scratchLen []) 0 0 3 rest)
            (decimalPart (filled scratchLen []) 0 0 3 (rest ++ more)) := decimalMore more
          simp only [bind,Except.bind,if_pos nul,Option.map_some,List.cons_append,List.drop_one,List.tail_cons] at run ⊢
          exact extendsBind behind (fun _ => extendsRefl _) v run
        · simp only [bind,Except.bind,if_neg nul] at run
          cases run

theorem valueMore (value : Bytes) : Extends (mp4Para upToNul value) (mp4Para id value) := by
  refine extendsBind (extendsRefl (copyValue value)) fun copy v run => ?_
  obtain ⟨more,all⟩ := List.take_prefix ((cstr copy).length + 1) copy
  have whole := paraMore more run
  rwa [upToNul,all] at whole

theorem handlerMore (failed : Bytes → Bool) (uri args : Bytes) :
    Extends (ngxHttpMp4Handler upToNul failed uri args) (ngxHttpMp4Handler id failed uri args) := by
  unfold ngxHttpMp4Handler
  split
  · exact extendsRefl _
  · refine extendsBind ?_ fun start => ?_
    · cases startValue args with
      | none => exact extendsRefl _
      | some value => exact extendsBind (valueMore value) fun _ => extendsRefl _
    · cases endValue args with
      | none => exact extendsRefl _
      | some value => exact extendsBind (valueMore value) fun _ => extendsRefl _

end memory

section times
variable {uri args value whole decimals : Bytes}

theorem startSafe (failed : Bytes → Bool) (value : Option Bytes) :
    Safe (startTime upToNul failed value) ↔ ∀ v ∈ value,Closed v := by
  cases value with
  | none => simp [startTime,Safe]
  | some value => simp [startTime,Safe,← valueClosed]

theorem endSafe (failed : Bytes → Bool) (start : Int) (value : Option Bytes) :
    Safe (endTime upToNul failed start value) ↔ ∀ v ∈ value,Closed v := by
  cases value with
  | none => simp [endTime,Safe]
  | some value => simp [endTime,Safe,← valueClosed]

theorem handlerSafe (failed : Bytes → Bool) (uri args : Bytes) :
    Contained failed uri args ↔ ∀ v ∈ timeValues uri args,Closed v := by
  unfold Contained ngxHttpMp4Handler timeValues
  split
  · simp [Safe]
  · rw [Safe,meetsBind]
    simp only [List.mem_append,Option.mem_toList,or_imp,forall_and]
    constructor
    · rintro ⟨start,ran,ends⟩
      exact ⟨(startSafe failed _).mp ⟨start,ran,trivial⟩,(endSafe failed start _).mp ends⟩
    · rintro ⟨first,second⟩
      obtain ⟨start,ran,-⟩ := (startSafe failed _).mpr first
      exact ⟨start,ran,(endSafe failed start _).mpr second⟩

theorem ngxIntSmall {n : Nat} (small : n < 2 ^ 31) : ngxInt n = n := Int.bmod_eq_of_le (by omega) (by omega)

theorem millisSmall (digits : ∀ c ∈ decimals,isdigit c = true) : millis decimals ≤ 999 := by
  have bound := numeralBound fun c mem => digits c (List.mem_of_mem_take (i := 3) mem)
  have short := List.length_take_le 3 decimals
  unfold millis
  have all : 10 ^ (decimals.take 3).length * 10 ^ (3 - (decimals.take 3).length) = 1000 := by
    rw [← Nat.pow_add,Nat.add_sub_cancel' short]
  have less := Nat.mul_lt_mul_of_pos_right bound (Nat.pow_pos (n := 3 - (decimals.take 3).length) (show 0 < 10 by decide))
  omega

theorem wholeScaled (digits : ∀ c ∈ whole,isdigit c = true) (small : numeralValue whole * 1000 + 999 < 2 ^ 31) :
    ngxInt (atoiSigned whole * 1000) = (numeralValue whole * 1000 : Nat) := by
  have fits : numeralValue whole * 1000 < 2 ^ 31 := Nat.lt_of_le_of_lt (Nat.le_add_right _ 999) small
  have one : numeralValue whole < 2 ^ 31 := Nat.lt_of_le_of_lt (Nat.le_mul_of_pos_right _ (by decide)) fits
  rw [atoiDigits digits,Nat.min_eq_left (Nat.le_sub_one_of_lt one)]
  exact_mod_cast ngxIntSmall fits

theorem sumScaled {n : Nat} (digits : ∀ c ∈ decimals,isdigit c = true) (small : n * 1000 + 999 < 2 ^ 31) :
    ngxInt ((numeralValue (decimals.take 3) : Nat) * 10 ^ (3 - (decimals.take 3).length) + (n * 1000 : Nat)) =
      (n * 1000 + millis decimals : Nat) := by
  have total := Nat.lt_of_le_of_lt (Nat.add_le_add_left (millisSmall digits) (n * 1000)) small
  rw [← ngxIntSmall total,Nat.add_comm (n * 1000)]
  simp [millis]

theorem formRead (form : TimeForm value whole decimals) :
    Meets (mp4Para id value) (· = (numeralValue whole * 1000 + millis decimals : Nat)) ↔ 46 ∈ value ∨ value.length < 31 := by
  obtain ⟨digits,shape,room,small⟩ := form
  have first : ∀ c ∈ whole,isdigit c = true := fun c mem => digits c (List.mem_append_left _ mem)
  have second : ∀ c ∈ decimals,isdigit c = true := fun c mem => digits c (List.mem_append_right _ mem)
  have scaled := wholeScaled first small
  generalize numeralValue whole = n at *
  have copy : filled scratchLen value = value ++ 0 :: List.replicate (31 - value.length) 0 := by
    have more : scratchLen - value.length = 31 - value.length + 1 := by
      unfold scratchLen at *
      omega
    rw [filled,more,List.replicate_succ]
  unfold mp4Para copyValue
  rw [if_pos (Nat.le_of_lt room),meetsBind,meetsOk,id_eq,copy]
  rcases shape with ⟨rfl,rfl⟩ | rfl
  · have none_ : (46 : Byte) ∉ value := fun point => absurd (first 46 point) (by decide)
    rw [paraStops first room (.inl rfl),scaled]
    cases left : 31 - value.length with
    | zero =>
      refine iff_of_false (fun ends => ?_) (not_or.mpr ⟨none_,by omega⟩)
      obtain ⟨_,run,-⟩ := ends
      cases run
    | succ more =>
      refine iff_of_true ?_ (.inr (by omega))
      have places := @decimalFrom [] (by simp) (List.replicate more 0)
      rw [List.nil_append] at places
      rw [List.replicate_succ,places]
      exact ⟨_,rfl,@sumScaled [] n (by simp) small⟩
  · rw [List.append_assoc,List.cons_append,paraStops first (by simp at room; omega) (.inr rfl),scaled]
    refine iff_of_true ?_ (.inl (by simp))
    rw [decimalFrom second]
    exact ⟨_,rfl,sumScaled second small⟩

end times

theorem timesExactly (failed : Bytes → Bool) (uri args : Bytes) :
    (Contained failed uri args ↔ ∀ value ∈ timeValues uri args,Closed value) ∧
    ∀ value whole decimals,TimeForm value whole decimals →
      (Meets (mp4Para id value) (· = (numeralValue whole * 1000 + millis decimals : Nat)) ↔ 46 ∈ value ∨ value.length < 31) :=
  ⟨handlerSafe failed uri args,fun _ _ _ form => formRead form⟩

theorem timesPoint : TimeForm (ascii "5.18") (ascii "5") (ascii "18") ∧
    (Contained (fun _ => false) (ascii "/a.mp4") (ascii "start=5.18") ↔
      ∀ value ∈ timeValues (ascii "/a.mp4") (ascii "start=5.18"),Closed value) ∧
    (Meets (mp4Para id (ascii "5.18")) (· = (5180 : Nat)) ↔ 46 ∈ ascii "5.18" ∨ (ascii "5.18").length < 31) :=
  have form : TimeForm (ascii "5.18") (ascii "5") (ascii "18") := ⟨by decide +kernel,by decide,by decide,by decide⟩
  ⟨form,(timesExactly (fun _ => false) (ascii "/a.mp4") (ascii "start=5.18")).1,
    (timesExactly (fun _ => false) (ascii "/a.mp4") (ascii "start=5.18")).2 _ _ _ form⟩

theorem wholeSeconds : timeValues (ascii "/a.mp4") (ascii "start=5") = [ascii "5"] ∧
    ¬Contained (fun _ => false) (ascii "/a.mp4") (ascii "start=5") := by
  have faults : ngxHttpMp4Handler upToNul (fun _ => false) (ascii "/a.mp4") (ascii "start=5") = .error .read := by
    decide
  refine ⟨by decide,?_⟩
  unfold Contained
  rw [faults]
  exact meetsError _

end MipsElfExec.Streaming

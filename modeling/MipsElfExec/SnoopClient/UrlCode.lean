import MipsElfExec.Lib.Checked
import MipsElfExec.Lib.Numeral

/-! URL coding: what is encoded and decoded with room enough, and what the two functions write into a buffer. A
size is a number of bytes that are there, so that an index does not wrap. -/
namespace MipsElfExec.SnoopClient
open CString Access

def plainByte (ch : Byte) : Bool := 65 ≤ ch && ch ≤ 90 || 97 ≤ ch && ch ≤ 122 || 48 ≤ ch && ch ≤ 57

def hexByte (d : Nat) : Byte := digitByte d

def escape (ch : Byte) : Bytes := [37,hexByte (ch.toNat / 16),hexByte (ch.toNat % 16)]

def encodeByte (ch : Byte) : Bytes := if plainByte ch then [ch] else if ch = 32 then [43] else escape ch

def encoded (str : Bytes) : Bytes := str.flatMap encodeByte

def putByte (resultSize : Nat) (result : Bytes) (ch : Byte) : Checked Bytes :=
  if result.length < resultSize then .ok (result ++ [ch]) else .error .write

def putEscape (resultSize : Nat) (result : Bytes) (ch : Byte) : Checked Bytes :=
  if result.length + 3 < resultSize then .ok (result ++ escape ch) else .error .write

def urlEncodeLoop (resultSize : Nat) : Bytes → Bytes → Checked (Option Bytes)
  | [],result => .ok (some result)
  | ch :: str,result =>
    if result.length < resultSize then
      if plainByte ch then do urlEncodeLoop resultSize str (← putByte resultSize result ch)
      else if ch = 32 then do urlEncodeLoop resultSize str (← putByte resultSize result 43)
      else if result.length + 3 < resultSize then do urlEncodeLoop resultSize str (← putEscape resultSize result ch)
      else .ok none
    else .ok (some result)

def putEnd (resultSize : Nat) : Option Bytes → Checked (Nat × Bytes)
  | none => .ok (0,[])
  | some result => do
    let _ ← putByte resultSize result 0
    return (result.length,result)

def urlEncode (str : Bytes) (resultSize : Nat) : Checked (Nat × Bytes) :=
  if str = [] ∨ resultSize = 0 then .ok (0,[])
  else do putEnd resultSize (← urlEncodeLoop resultSize str [])

def hexPair (a b : Byte) : Byte := (a - 48) <<< 4 ||| (b - 48)

-- The digits are refused when they are 48 above '0'.
def pairRead (a b : Byte) : Bool := a - 48 != 48 && b - 48 != 48

def decodeByte (ch : Byte) : Byte := if ch = 43 then 32 else ch

def decoded : Bytes → Bytes
  | [] => []
  | 37 :: a :: b :: str => if pairRead a b then hexPair a b :: decoded str else 37 :: decoded (a :: b :: str)
  | ch :: str => decodeByte ch :: decoded str

def urlDecodeLoop (resultSize : Nat) : Bytes → Bytes → Checked Bytes
  | [],result => .ok result
  | 37 :: a :: b :: str,result =>
    if result.length < resultSize then
      if pairRead a b then do urlDecodeLoop resultSize str (← putByte resultSize result (hexPair a b))
      else do urlDecodeLoop resultSize (a :: b :: str) (← putByte resultSize result 37)
    else .ok result
  | ch :: str,result =>
    if result.length < resultSize then do urlDecodeLoop resultSize str (← putByte resultSize result (decodeByte ch))
    else .ok result

def urlDecode (str : Bytes) (resultSize : Nat) : Checked (Nat × Bytes) :=
  if str = [] ∨ resultSize = 0 then .ok (0,[])
  else do putEnd resultSize (some (← urlDecodeLoop resultSize str []))

def escapes : Bytes → Nat
  | [] => 0
  | 37 :: a :: b :: str => if pairRead a b then escapes str + 1 else escapes (a :: b :: str)
  | _ :: str => escapes str

theorem decodedSize (str : Bytes) : (decoded str).length + 2 * escapes str = str.length := by
  induction str using decoded.induct with
  | case1 => rfl
  | case2 a b str reads ih => simp [decoded,escapes,reads]; omega
  | case3 a b str reads ih => simp [decoded,escapes,reads]; simp at ih; omega
  | case4 ch str other ih => simp [decoded,escapes]; omega

section runs
variable {resultSize : Nat} {result : Bytes}

theorem putTakes (inside : result.length ≤ resultSize) (ch : Byte) (more : Bytes) (loop : Bytes → Checked Bytes)
    (rest : (result ++ [ch]).length ≤ resultSize → loop (result ++ [ch]) = .ok ((result ++ [ch] ++ more).take resultSize)) :
    (if result.length < resultSize then putByte resultSize result ch >>= loop else .ok result) =
      .ok ((result ++ ch :: more).take resultSize) := by
  by_cases room : result.length < resultSize
  · have next := rest (by simp; omega)
    simp only [List.append_assoc,List.singleton_append] at next
    simpa [room,putByte,bind,Except.bind] using next
  · have full : result.length = resultSize := by omega
    simp [← full]

theorem decodeLoopRuns (str : Bytes) (inside : result.length ≤ resultSize) :
    urlDecodeLoop resultSize str result = .ok ((result ++ decoded str).take resultSize) := by
  induction str using decoded.induct generalizing result with
  | case1 => simp [urlDecodeLoop,decoded,List.take_of_length_le inside]
  | case2 a b str reads ih =>
    simpa [urlDecodeLoop,decoded,reads] using putTakes inside (hexPair a b) (decoded str) _ ih
  | case3 a b str reads ih =>
    simpa [urlDecodeLoop,decoded,reads] using putTakes inside 37 (decoded (a :: b :: str)) _ ih
  | case4 ch str other ih =>
    simpa [urlDecodeLoop,decoded] using putTakes inside (decodeByte ch) (decoded str) _ ih

theorem decodeRuns {str : Bytes} (some_ : str ≠ []) (room : resultSize ≠ 0) : urlDecode str resultSize =
    if (decoded str).length < resultSize then .ok ((decoded str).length,decoded str) else .error .write := by
  have loop := @decodeLoopRuns resultSize [] str (Nat.zero_le _)
  unfold urlDecode
  rw [if_neg (by simp [some_,room]),loop]
  by_cases fits : (decoded str).length < resultSize
  · simp [putEnd,putByte,fits,List.take_of_length_le fits.le,bind,Except.bind,pure,Except.pure]
  · have full : resultSize ≤ (decoded str).length := by omega
    simp [putEnd,putByte,fits,full,bind,Except.bind]

def singleByte (ch : Byte) : Bool := plainByte ch || ch == 32

def Fills (str : Bytes) (room : Nat) : Prop :=
  ∃ front ch rest,str = front ++ ch :: rest ∧ singleByte ch = true ∧ (encoded front).length + 1 = room

theorem encodedCons (ch : Byte) (str : Bytes) : encoded (ch :: str) = encodeByte ch ++ encoded str := rfl

theorem singleEncoded {ch : Byte} (single : singleByte ch = true) : (encodeByte ch).length = 1 := by
  unfold encodeByte
  split
  · rfl
  · rename_i other
    have space : ch = 32 := by simpa [singleByte,other] using single
    simp [space]

theorem escapeEncoded {ch : Byte} (escaped : singleByte ch = false) : encodeByte ch = escape ch := by
  simp only [singleByte,Bool.or_eq_false_iff,beq_eq_false_iff_ne] at escaped
  simp [encodeByte,escaped]

theorem fillsCons (ch : Byte) (str : Bytes) (room : Nat) : Fills (ch :: str) room ↔
    singleByte ch = true ∧ room = 1 ∨ ∃ left,room = (encodeByte ch).length + left ∧ Fills str left := by
  constructor
  · rintro ⟨front,c,rest,same,single,size⟩
    cases front with
    | nil =>
      cases (List.cons.inj same).1
      exact .inl ⟨single,size.symm⟩
    | cons b front =>
      obtain ⟨rfl,rfl⟩ := List.cons.inj same
      exact .inr ⟨(encoded front).length + 1,by rw [← size,encodedCons,List.length_append]; omega,front,c,rest,rfl,single,rfl⟩
  · rintro (⟨single,rfl⟩ | ⟨left,rfl,front,c,rest,rfl,single,rfl⟩)
    · exact ⟨[],ch,str,rfl,single,rfl⟩
    · exact ⟨ch :: front,c,rest,rfl,single,by rw [encodedCons,List.length_append]; omega⟩

theorem fillsSome {str : Bytes} {room : Nat} (fills : Fills str room) : 0 < room := by
  obtain ⟨front,ch,rest,same,single,rfl⟩ := fills
  omega

theorem fillsStep {ch : Byte} {room : Nat} (fits : (encodeByte ch).length ≤ room) (more : ¬(singleByte ch = true ∧ room = 1))
    (str : Bytes) : Fills (ch :: str) room ↔ Fills str (room - (encodeByte ch).length) := by
  rw [fillsCons]
  constructor
  · rintro (last | ⟨left,rfl,fills⟩)
    · exact absurd last more
    · rwa [Nat.add_sub_cancel_left]
  · exact fun fills => .inr ⟨_,by omega,fills⟩

theorem encodeSingle {ch : Byte} (single : singleByte ch = true) (str : Bytes) (inside : result.length < resultSize) :
    urlEncodeLoop resultSize (ch :: str) result = urlEncodeLoop resultSize str (result ++ encodeByte ch) := by
  by_cases plain : plainByte ch = true
  · simp [urlEncodeLoop,encodeByte,inside,plain,putByte,bind,Except.bind]
  · have space : ch = 32 := by simpa [singleByte,plain] using single
    simp [urlEncodeLoop,encodeByte,inside,space,plainByte,putByte,bind,Except.bind]

theorem encodeEscape {ch : Byte} (escaped : singleByte ch = false) (str : Bytes) (inside : result.length < resultSize) :
    urlEncodeLoop resultSize (ch :: str) result =
      if result.length + 3 < resultSize then urlEncodeLoop resultSize str (result ++ encodeByte ch) else .ok none := by
  rw [escapeEncoded escaped]
  simp only [singleByte,Bool.or_eq_false_iff,beq_eq_false_iff_ne] at escaped
  by_cases room : result.length + 3 < resultSize <;> simp [urlEncodeLoop,inside,escaped,room,putEscape,bind,Except.bind]

theorem encodeFull (str : Bytes) (full : result.length = resultSize) :
    urlEncodeLoop resultSize str result = .ok (some result) := by
  cases str with
  | nil => rfl
  | cons ch str => simp [urlEncodeLoop,full]

theorem encodeLoopRuns (str : Bytes) (inside : result.length < resultSize) :
    (Fills str (resultSize - result.length) → ∃ full,urlEncodeLoop resultSize str result = .ok (some full) ∧ full.length = resultSize) ∧
    (¬Fills str (resultSize - result.length) → urlEncodeLoop resultSize str result =
      if (result ++ encoded str).length < resultSize then .ok (some (result ++ encoded str)) else .ok none) := by
  induction str generalizing result with
  | nil =>
    refine ⟨?_,fun _ => by simp [urlEncodeLoop,encoded,inside]⟩
    rintro ⟨front,ch,rest,same,-⟩
    simp at same
  | cons ch str ih =>
    have whole : result ++ encoded (ch :: str) = result ++ encodeByte ch ++ encoded str := by simp [encodedCons]
    rw [whole]
    cases single : singleByte ch with
    | true =>
      have one := singleEncoded single
      have size : (result ++ encodeByte ch).length = result.length + 1 := by simp [one]
      rw [encodeSingle single str inside]
      by_cases last : result.length + 1 = resultSize
      · have fills : Fills (ch :: str) (resultSize - result.length) := (fillsCons ch str _).mpr (.inl ⟨single,by omega⟩)
        exact ⟨fun _ => ⟨_,encodeFull str (by omega),by omega⟩,fun not_ => absurd fills not_⟩
      · have rest := ih (show (result ++ encodeByte ch).length < resultSize by omega)
        rwa [List.length_append,← Nat.sub_sub,← fillsStep (by omega) (by omega) str] at rest
    | false =>
      have three : (encodeByte ch).length = 3 := by rw [escapeEncoded single]; rfl
      have size : (result ++ encodeByte ch).length = result.length + 3 := by simp [three]
      rw [encodeEscape single str inside]
      by_cases room : result.length + 3 < resultSize
      · have rest := ih (show (result ++ encodeByte ch).length < resultSize by omega)
        rw [List.length_append,← Nat.sub_sub,← fillsStep (by omega) (by simp [single]) str] at rest
        rwa [if_pos room]
      · have never : ¬Fills (ch :: str) (resultSize - result.length) := by
          rw [fillsCons,three]
          rintro (⟨single',-⟩ | ⟨left,size,fills⟩)
          · simp [single] at single'
          · have some_ := fillsSome fills
            omega
        have long : ¬(result ++ encodeByte ch ++ encoded str).length < resultSize := by
          rw [List.length_append,size]
          omega
        exact ⟨fun fills => absurd fills never,fun _ => by rw [if_neg room,if_neg long]⟩

def Fits (run : Checked (Nat × Bytes)) (whole : Bytes) (resultSize : Nat) : Prop :=
  Meets run fun r => (r.1 = 0 ↔ resultSize < whole.length + 1) ∧ (0 < r.1 → r = (whole.length,whole))

theorem encodedSome {str : Bytes} (some_ : str ≠ []) : 0 < (encoded str).length := by
  cases str with
  | nil => exact absurd rfl some_
  | cons ch str =>
    cases single : singleByte ch with
    | true => simp [encodedCons,singleEncoded single,Nat.add_comm 1]
    | false => simp [encodedCons,escapeEncoded single,escape]

theorem decodedSome {str : Bytes} (some_ : str ≠ []) : 0 < (decoded str).length := by
  fun_cases decoded str with
  | case1 => exact absurd rfl some_
  | case2 a b str reads => simp
  | case3 a b str reads => simp
  | case4 ch str other => simp

theorem fitsWhole {whole : Bytes} (some_ : 0 < whole.length) (room : whole.length < resultSize) :
    Fits (.ok (whole.length,whole)) whole resultSize := by
  refine (meetsOk _).mpr ⟨?_,fun _ => rfl⟩
  dsimp only
  omega

theorem encodeRuns {str : Bytes} (some_ : str ≠ []) (room : 0 < resultSize) :
    Fits (urlEncode str resultSize) (encoded str) resultSize ↔ ¬Fills str resultSize := by
  have loop := encodeLoopRuns str (show ([] : Bytes).length < resultSize from room)
  have start : urlEncode str resultSize = urlEncodeLoop resultSize str [] >>= putEnd resultSize := by
    unfold urlEncode
    rw [if_neg (by simp [some_]; omega)]
  rw [start]
  constructor
  · intro fits fills
    obtain ⟨full,ends,size⟩ := loop.1 fills
    simp [Fits,ends,putEnd,putByte,size,bind,Except.bind] at fits
  · intro never
    have more := encodedSome some_
    rw [loop.2 never]
    by_cases fits : (encoded str).length < resultSize
    · simpa [fits,putEnd,putByte,bind,Except.bind,pure,Except.pure] using fitsWhole more fits
    · simp [Fits,fits,putEnd]
      omega

theorem decodeFits {str : Bytes} (some_ : str ≠ []) (room : 0 < resultSize) :
    Fits (urlDecode str resultSize) (decoded str) resultSize ↔ str.length < resultSize + 2 * escapes str := by
  have size := decodedSize str
  have more := decodedSome some_
  rw [decodeRuns some_ (by omega)]
  by_cases fits : (decoded str).length < resultSize
  · rw [if_pos fits]
    exact ⟨fun _ => by omega,fun _ => fitsWhole more fits⟩
  · rw [if_neg fits]
    exact ⟨fun refused => absurd refused (meetsError _),fun _ => by omega⟩

end runs

/-- The size of the buffer is kept to when no byte that stands for itself fills it, and when the decoded text is shorter. -/
theorem codesFitExactly {str : Bytes} {resultSize : Nat} (some_ : str ≠ []) (room : 0 < resultSize) :
    (Fits (urlEncode str resultSize) (encoded str) resultSize ↔ ¬Fills str resultSize) ∧
    (Fits (urlDecode str resultSize) (decoded str) resultSize ↔ str.length < resultSize + 2 * escapes str) :=
  ⟨encodeRuns some_ room,decodeFits some_ room⟩

theorem codesFitShort : (ascii "a/" ≠ [] ∧ 0 < 5) ∧
    (Fits (urlEncode (ascii "a/") 5) (encoded (ascii "a/")) 5 ↔ ¬Fills (ascii "a/") 5) ∧
    (Fits (urlDecode (ascii "a/") 5) (decoded (ascii "a/")) 5 ↔ (ascii "a/").length < 5 + 2 * escapes (ascii "a/")) :=
  ⟨by decide,codesFitExactly (by decide) (by decide)⟩

theorem codesOverrun : urlEncode (ascii "abc") 3 = .error .write ∧ urlDecode (ascii "abc") 3 = .error .write ∧
    ¬Fits (urlEncode (ascii "abc") 3) (encoded (ascii "abc")) 3 ∧ ¬Fits (urlDecode (ascii "abc") 3) (decoded (ascii "abc")) 3 := by
  have encodes : urlEncode (ascii "abc") 3 = .error .write := by decide
  have decodes : urlDecode (ascii "abc") 3 = .error .write := by decide
  exact ⟨encodes,decodes,by simp [Fits,encodes],by simp [Fits,decodes]⟩

def rereadByte (ch : Byte) : Byte :=
  if singleByte ch then ch else hexPair (hexByte (ch.toNat / 16)) (hexByte (ch.toNat % 16))

def Rereads (ch : Byte) : Prop := singleByte ch = true ∨ ch.toNat / 16 < 10 ∧ ch.toNat % 16 < 10
instance (ch : Byte) : Decidable (Rereads ch) := inferInstanceAs (Decidable (_ ∨ _))

theorem rereadIff : ∀ ch : Byte,rereadByte ch = ch ↔ Rereads ch := everyByte (by decide +kernel)

theorem pairAlways : ∀ ch : Byte,pairRead (hexByte (ch.toNat / 16)) (hexByte (ch.toNat % 16)) = true :=
  everyByte (by decide +kernel)

theorem plainDecodes : ∀ ch : Byte,plainByte ch = true → ch ≠ 37 ∧ decodeByte ch = ch := everyByte (by decide +kernel)

theorem decodedPlain {ch : Byte} (other : ch ≠ 37) (str : Bytes) : decoded (ch :: str) = decodeByte ch :: decoded str := by
  rw [decoded]
  rintro _ _ _ rfl
  exact absurd rfl other

theorem decodedEncoded (ch : Byte) (str : Bytes) : decoded (encodeByte ch ++ str) = rereadByte ch :: decoded str := by
  unfold rereadByte
  cases single : singleByte ch with
  | true =>
    unfold encodeByte
    by_cases plain : plainByte ch = true
    · obtain ⟨other,same⟩ := plainDecodes ch plain
      simp [plain,decodedPlain other,same]
    · have space : ch = 32 := by simpa [singleByte,plain] using single
      subst space
      simpa [plainByte,decodeByte] using decodedPlain (show (43 : Byte) ≠ 37 by decide) str
  | false => simp [escapeEncoded single,escape,decoded,pairAlways]

theorem decodedText (str : Bytes) : decoded (encoded str) = str.map rereadByte := by
  induction str with
  | nil => rfl
  | cons ch str ih => simp [encodedCons,decodedEncoded,ih]

theorem encodedBound (str : Bytes) : (encoded str).length ≤ 3 * str.length := by
  induction str with
  | nil => simp [encoded]
  | cons ch str ih =>
    have step : (encodeByte ch).length ≤ 3 := by
      cases single : singleByte ch with
      | true => simp [singleEncoded single]
      | false => simp [escapeEncoded single,escape]
    simp only [encodedCons,List.length_append,List.length_cons]
    omega

theorem fillsBound {str : Bytes} {room : Nat} (fills : Fills str room) : room ≤ (encoded str).length := by
  obtain ⟨front,ch,rest,rfl,single,rfl⟩ := fills
  have one := singleEncoded single
  simp only [encoded,List.flatMap_append,List.flatMap_cons,List.length_append,one]
  omega

def CodesBack (str : Bytes) (encodeSize decodeSize : Nat) : Prop :=
  Meets (urlEncode str encodeSize) fun e => Meets (urlDecode e.2 decodeSize) fun d => d = (str.length,str)

theorem codesBackTo {str : Bytes} {encodeSize decodeSize : Nat} (some_ : str ≠ []) (roomEncode : 3 * str.length < encodeSize)
    (roomDecode : str.length < decodeSize) : CodesBack str encodeSize decodeSize ↔ str.map rereadByte = str := by
  have bound := encodedBound str
  have more := encodedSome some_
  have whole : encoded str ≠ [] := List.ne_nil_of_length_pos more
  have size : (decoded (encoded str)).length = str.length := by simp [decodedText]
  obtain ⟨e,encodes,fits⟩ := (encodeRuns some_ (show 0 < encodeSize by omega)).mpr fun fills => by
    have large := fillsBound fills
    omega
  have same : e = ((encoded str).length,encoded str) := fits.2 (Nat.pos_of_ne_zero fun zero => by
    have small := fits.1.mp zero
    omega)
  unfold CodesBack
  rw [encodes,meetsOk,same,decodeRuns whole (by omega),if_pos (by omega),meetsOk,decodedText,List.length_map]
  simp

theorem rereadText (str : Bytes) : str.map rereadByte = str ↔ ∀ ch ∈ str,Rereads ch := by
  induction str with
  | nil => simp
  | cons ch str ih => simp [rereadIff,ih]

/-- A text comes back exactly when no escape in it has a letter. -/
theorem codesBackExactly {str : Bytes} {encodeSize decodeSize : Nat} (some_ : str ≠ []) (roomEncode : 3 * str.length < encodeSize)
    (roomDecode : str.length < decodeSize) : CodesBack str encodeSize decodeSize ↔ ∀ ch ∈ str,Rereads ch :=
  (codesBackTo some_ roomEncode roomDecode).trans (rereadText str)

theorem codesBackPercent : (ascii "a %" ≠ [] ∧ 9 < 10 ∧ 3 < 4) ∧
    (CodesBack (ascii "a %") 10 4 ↔ ∀ ch ∈ ascii "a %",Rereads ch) :=
  ⟨by decide,codesBackExactly (by decide) (by decide) (by decide)⟩

theorem slashLost : urlEncode (ascii "/") 4 = .ok (3,ascii "%2F") ∧ urlDecode (ascii "%2F") 2 = .ok (1,ascii "6") ∧
    ¬CodesBack (ascii "/") 4 2 := by
  have encodes : urlEncode (ascii "/") 4 = .ok (3,ascii "%2F") := by decide
  have decodes : urlDecode (ascii "%2F") 2 = .ok (1,ascii "6") := by decide
  refine ⟨encodes,decodes,?_⟩
  simp [CodesBack,encodes,decodes]
  decide

end MipsElfExec.SnoopClient

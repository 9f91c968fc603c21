import MipsElfExec.Snooping.Key

/-! What the key of a URL is made of, and when the compaction in place yields it. -/
namespace MipsElfExec.Snooping
open CString

structure UrlParts where
  front : List Bytes
  last : Bytes
  query : Option Bytes
  clean : ∀ name ∈ front ++ [last],47 ∉ name ∧ 63 ∉ name

def slashed (name : Bytes) : Bytes := 47 :: name

def queryText : Option Bytes → Bytes
  | some para => 63 :: para
  | none => []

def UrlParts.text (u : UrlParts) : Bytes := u.front.flatMap slashed ++ slashed u.last ++ queryText u.query

def partsSpec (keyFlg : Nat) : Nat → List Bytes → Bytes
  | _,[] => []
  | k,name :: names =>
    (if k ≤ 10 ∧ keyFlg.testBit k = true then slashed name else []) ++ partsSpec keyFlg (k + 1) names

def fileSpec (u : UrlParts) (rule : Rule) : Bytes :=
  if rule.keyFlg &&& httpCacheKeyFile ≠ 0 then keyParse rule.urlFileKeyParse (slashed u.last) else []

def paraSpec (u : UrlParts) (rule : Rule) : Bytes :=
  if u.query.isSome ∧ rule.keyFlg &&& httpCacheKeyPara ≠ 0 then keyParse rule.urlParaKeyParse (queryText u.query) else []

def keySpec (u : UrlParts) (rule : Rule) : Bytes :=
  partsSpec rule.keyFlg 0 (u.front ++ [u.last]) ++ fileSpec u rule ++ paraSpec u rule

section buffers
variable {data text : Bytes} {pos a b n : Nat}

theorem sliceBehind (inside : pos ≤ data.length) (behind : pos + text.length ≤ a) :
    slice (overwrite data pos text) a b = slice data a b := by
  have size : (data.take pos ++ text).length = pos + text.length := by
    rw [List.length_append,List.length_take_of_le inside]
  obtain ⟨more,rfl⟩ := Nat.exists_eq_add_of_le behind
  unfold slice overwrite
  rw [← List.drop_drop,← size,List.drop_left,size,List.drop_drop]

theorem takeBefore (before : n ≤ pos) (inside : pos ≤ data.length) : (overwrite data pos text).take n = data.take n := by
  have short : n ≤ (data.take pos).length := by rw [List.length_take_of_le inside]; exact before
  unfold overwrite
  rw [List.append_assoc,List.take_append_of_le_length short,List.take_take,Nat.min_eq_left before]

theorem takeOverwrite (inside : pos ≤ data.length) :
    (overwrite data pos text).take (pos + text.length) = data.take pos ++ text := by
  have size : (data.take pos ++ text).length = pos + text.length := by
    rw [List.length_append,List.length_take_of_le inside]
  unfold overwrite
  rw [← size,List.take_left]

theorem overwriteLong (data text : Bytes) (pos : Nat) : data.length ≤ (overwrite data pos text).length := by
  simp only [overwrite,List.length_append,List.length_take,List.length_drop]
  omega

theorem overwriteEnd (inside : pos ≤ data.length) : pos + text.length ≤ (overwrite data pos text).length := by
  simp only [overwrite,List.length_append,List.length_take,List.length_drop]
  omega

theorem overwriteFront (data text : Bytes) : (overwrite data 0 text).take text.length = text := by
  simp [overwrite]

theorem overwriteNone (data : Bytes) (pos : Nat) : overwrite data pos [] = data := by
  simp [overwrite]

theorem overwriteSame (text rest : Bytes) : overwrite (text ++ rest) 0 text = text ++ rest := by
  simp [overwrite]

theorem sliceHead (inside : pos ≤ data.length) (some_ : text ≠ []) (wide : pos < b) :
    (slice (overwrite data pos text) pos b).head? = text.head? := by
  have size : (data.take pos).length = pos := List.length_take_of_le inside
  obtain ⟨c,rest,rfl⟩ := List.exists_cons_of_ne_nil some_
  obtain ⟨more,rfl⟩ := Nat.exists_eq_add_of_lt wide
  have behind : (overwrite data pos (c :: rest)).drop pos = c :: (rest ++ data.drop (pos + (c :: rest).length)) := by
    rw [overwrite,List.append_assoc,List.drop_append_of_le_length size.ge,List.drop_of_length_le size.le]
    rfl
  have width : pos + more + 1 - pos = more + 1 := by omega
  rw [slice,behind,width]
  rfl

end buffers

def fileRead (urlName : Bytes) (rule : Rule) : Bytes :=
  let scan := keyScan rule.keyFlg urlName 0 0 0
  slice (overwrite urlName 0 scan.kept) scan.lastXiegan (scan.query.getD urlName.length)

def fileKept (urlName : Bytes) (rule : Rule) : Bytes :=
  if rule.keyFlg &&& httpCacheKeyFile ≠ 0 then keyParse rule.urlFileKeyParse (fileRead urlName rule) else []

def fileParsed (urlName : Bytes) (rule : Rule) : Bytes :=
  let scan := keyScan rule.keyFlg urlName 0 0 0
  overwrite (overwrite urlName 0 scan.kept) scan.lastXiegan (fileKept urlName rule)

def fileWritten (urlName : Bytes) (rule : Rule) : Bytes :=
  overwrite (fileParsed urlName rule) (keyScan rule.keyFlg urlName 0 0 0).kept.length (fileKept urlName rule)

def paraRead (urlName : Bytes) (rule : Rule) : Bytes :=
  slice (fileWritten urlName rule) ((keyScan rule.keyFlg urlName 0 0 0).query.getD urlName.length) urlName.length

def paraKept (urlName : Bytes) (rule : Rule) : Bytes :=
  if (keyScan rule.keyFlg urlName 0 0 0).query.getD urlName.length < urlName.length ∧
      rule.keyFlg &&& httpCacheKeyPara ≠ 0 then
    keyParse rule.urlParaKeyParse (paraRead urlName rule) else []

section scans
variable {keyFlg i k last : Nat} {name : Bytes}

theorem keptShort (keyFlg : Nat) (urlName : Bytes) (i slashes last : Nat) :
    (keyScan keyFlg urlName i slashes last).kept.length ≤ urlName.length := by
  induction urlName generalizing i slashes last with
  | nil => exact Nat.le_refl 0
  | cons b bs ih =>
    have one (scan : KeyScan) (flag : Bool) (short : scan.kept.length ≤ bs.length) :
        (if flag = true then { scan with kept := b :: scan.kept } else scan).kept.length ≤ (b :: bs).length := by
      cases flag
      · exact Nat.le_succ_of_le short
      · exact Nat.succ_le_succ short
    unfold keyScan
    split
    · exact Nat.zero_le _
    · exact one _ _ (ih ..)

theorem keyResult (urlName : Bytes) (rule : Rule) : ngxHttpSnoopingUrl2localKey urlName rule =
    (fileParsed urlName rule).take (keyScan rule.keyFlg urlName 0 0 0).kept.length ++ fileKept urlName rule ++
      paraKept urlName rule := by
  have inside : (keyScan rule.keyFlg urlName 0 0 0).kept.length ≤ (fileParsed urlName rule).length :=
    (keptShort rule.keyFlg urlName 0 0 0).trans ((overwriteLong ..).trans (overwriteLong ..))
  have whole : ngxHttpSnoopingUrl2localKey urlName rule =
      (overwrite (fileWritten urlName rule) ((keyScan rule.keyFlg urlName 0 0 0).kept.length + (fileKept urlName rule).length)
        (paraKept urlName rule)).take ((keyScan rule.keyFlg urlName 0 0 0).kept.length + (fileKept urlName rule).length +
          (paraKept urlName rule).length) := rfl
  have room : (keyScan rule.keyFlg urlName 0 0 0).kept.length + (fileKept urlName rule).length ≤
      (fileWritten urlName rule).length := overwriteEnd inside
  rw [whole,takeOverwrite room,fileWritten,takeOverwrite inside]

def keptParts (keyFlg : Nat) : Nat → List Bytes → Bytes
  | _,[] => []
  | k,name :: names =>
    (if keyFlg.testBit (k % 32) = true then slashed name else []) ++ keptParts keyFlg (k + 1) names

theorem scanName (clean : 47 ∉ name ∧ 63 ∉ name) (rest : Bytes) (i last : Nat) :
    keyScan keyFlg (name ++ rest) i (k + 1) last =
      let r := keyScan keyFlg rest (i + name.length) (k + 1) last
      { r with kept := (if keyFlg.testBit (k % 32) = true then name else []) ++ r.kept } := by
  induction name generalizing i with
  | nil => simp
  | cons b name ih =>
    obtain ⟨slash,mark⟩ := clean
    rw [List.mem_cons,not_or] at slash mark
    have here : (k + 1 + 31) % 32 = k % 32 := by omega
    rw [List.cons_append,keyScan,if_neg (Ne.symm mark.1),if_neg (Ne.symm slash.1),if_neg (Ne.symm slash.1)]
    dsimp only
    rw [ih ⟨slash.2,mark.2⟩,here,List.length_cons]
    have next : i + 1 + name.length = i + (name.length + 1) := by omega
    rw [next]
    cases keyFlg.testBit (k % 32) <;> rfl

theorem scanPart (clean : 47 ∉ name ∧ 63 ∉ name) (rest : Bytes) (i last : Nat) :
    keyScan keyFlg (slashed name ++ rest) i k last =
      let r := keyScan keyFlg rest (i + (slashed name).length) (k + 1) i
      { r with kept := (if keyFlg.testBit (k % 32) = true then slashed name else []) ++ r.kept } := by
  have here : (k + 1 + 31) % 32 = k % 32 := by omega
  have next : i + 1 + name.length = i + (slashed name).length := by
    rw [slashed,List.length_cons]
    omega
  rw [slashed,List.cons_append,keyScan,if_neg (by decide),if_pos rfl,if_pos rfl]
  dsimp only
  rw [scanName clean,here,next]
  cases keyFlg.testBit (k % 32) <;> rfl

theorem scanQuery (query : Option Bytes) : keyScan keyFlg (queryText query) i k last =
    ⟨[],last,query.map fun _ => i⟩ := by
  cases query <;> rfl

theorem scanParts (front : List Bytes) (name : Bytes) (query : Option Bytes)
    (clean : ∀ part ∈ front ++ [name],47 ∉ part ∧ 63 ∉ part) (i k last : Nat) :
    keyScan keyFlg (front.flatMap slashed ++ (slashed name ++ queryText query)) i k last =
      ⟨keptParts keyFlg k (front ++ [name]),i + (front.flatMap slashed).length,
        query.map fun _ => i + (front.flatMap slashed).length + (slashed name).length⟩ := by
  induction front generalizing i k last with
  | nil =>
    rw [List.flatMap_nil,List.nil_append,scanPart (clean name (by simp)),scanQuery]
    rfl
  | cons part front ih =>
    have tail : ∀ part ∈ front ++ [name],47 ∉ part ∧ 63 ∉ part := fun p mem => clean p (List.mem_cons_of_mem _ mem)
    rw [List.flatMap_cons,List.append_assoc,scanPart (clean part (by simp)),ih tail]
    simp only [List.length_append,Nat.add_assoc]
    rfl

end scans

section parts
variable {keyFlg k : Nat} {names : List Bytes}

theorem keptAppend (more : List Bytes) :
    keptParts keyFlg k (names ++ more) = keptParts keyFlg k names ++ keptParts keyFlg (k + names.length) more := by
  induction names generalizing k with
  | nil => rfl
  | cons name names ih =>
    have next : k + 1 + names.length = k + (name :: names).length := by rw [List.length_cons]; omega
    rw [List.cons_append,keptParts,ih,keptParts,List.append_assoc,next]

theorem keptSublist (keyFlg k : Nat) (names : List Bytes) : (keptParts keyFlg k names).Sublist (names.flatMap slashed) := by
  induction names generalizing k with
  | nil => exact List.Sublist.refl _
  | cons name names ih =>
    rw [keptParts,List.flatMap_cons]
    refine List.Sublist.append ?_ (ih _)
    split
    · exact List.Sublist.refl _
    · exact List.nil_sublist _

def onlyTen (keyFlg k : Nat) (names : List Bytes) : Prop :=
  ∀ j,10 < j → k ≤ j → j < k + names.length → keyFlg.testBit (j % 32) = false

theorem onlyTenRest {name : Bytes} (only : onlyTen keyFlg k (name :: names)) : onlyTen keyFlg (k + 1) names :=
  fun j ten low high => only j ten (by omega) (by rw [List.length_cons]; omega)

theorem partsMade (only : onlyTen keyFlg k names) : keptParts keyFlg k names = partsSpec keyFlg k names := by
  induction names generalizing k with
  | nil => rfl
  | cons name names ih =>
    rw [keptParts,partsSpec,ih (onlyTenRest only)]
    congr 1
    rcases Nat.lt_or_ge 10 k with many | few
    · rw [only k many (Nat.le_refl k) (by rw [List.length_cons]; omega),if_neg (by simp),if_neg (by omega)]
    · rw [Nat.mod_eq_of_lt (by omega)]
      simp [few]

theorem partsShort (keyFlg k : Nat) (names : List Bytes) :
    (partsSpec keyFlg k names).length ≤ (keptParts keyFlg k names).length := by
  induction names generalizing k with
  | nil => exact Nat.le_refl 0
  | cons name names ih =>
    have rest := ih (k + 1)
    rw [keptParts,partsSpec,List.length_append,List.length_append]
    split
    · rename_i kept
      rw [Nat.mod_eq_of_lt (by omega),if_pos kept.2]
      omega
    · rw [List.length_nil]
      omega

theorem partsExact (same : (partsSpec keyFlg k names).length = (keptParts keyFlg k names).length) :
    onlyTen keyFlg k names := by
  induction names generalizing k with
  | nil =>
    intro j _ low high
    rw [List.length_nil] at high
    omega
  | cons name names ih =>
    have rest := partsShort keyFlg (k + 1) names
    rw [keptParts,partsSpec,List.length_append,List.length_append] at same
    have first : (if k ≤ 10 ∧ keyFlg.testBit k = true then slashed name else []).length ≤
        (if keyFlg.testBit (k % 32) = true then slashed name else []).length := by
      split
      · rename_i kept
        rw [Nat.mod_eq_of_lt (by omega),if_pos kept.2]
      · exact Nat.zero_le _
    intro j ten low high
    rcases Nat.lt_or_ge k j with later | here
    · have tail : (partsSpec keyFlg (k + 1) names).length = (keptParts keyFlg (k + 1) names).length := by omega
      exact ih tail j ten later (by rw [List.length_cons] at high; omega)
    · cases Nat.le_antisymm low here
      rw [if_neg (by omega)] at same
      cases bit : keyFlg.testBit (k % 32) with
      | false => rfl
      | true =>
        rw [bit,if_pos rfl,List.length_nil,slashed,List.length_cons] at same
        omega

end parts

section exactness
variable (u : UrlParts) (rule : Rule)

def UrlParts.frontText : Bytes := u.front.flatMap slashed

def frontKept : Bytes := keptParts rule.keyFlg 0 u.front

def lastKept : Bool := rule.keyFlg.testBit (u.front.length % 32)

def dropped : Nat := u.frontText.length - (frontKept u rule).length

def fileFlag : Prop := rule.keyFlg &&& httpCacheKeyFile ≠ 0
def paraFlag : Prop := u.query.isSome ∧ rule.keyFlg &&& httpCacheKeyPara ≠ 0

structure KeyMade : Prop where
  spec : ngxHttpSnoopingUrl2localKey u.text rule = keySpec u rule
  file : fileFlag rule → fileRead u.text rule = slashed u.last
  para : paraFlag u rule → paraRead u.text rule = queryText u.query

structure KeyClear : Prop where
  only : onlyTen rule.keyFlg 0 (u.front ++ [u.last])
  room : fileFlag rule → lastKept u rule = true → (slashed u.last).length ≤ dropped u rule ∨
    (dropped u rule = 0 ∧ fileSpec u rule <+: slashed u.last ∧ (fileSpec u rule = [] ∨ ¬paraFlag u rule))

variable {u rule}

theorem scanText : keyScan rule.keyFlg u.text 0 0 0 =
    ⟨frontKept u rule ++ (if lastKept u rule = true then slashed u.last else []),u.frontText.length,
      u.query.map fun _ => u.frontText.length + (slashed u.last).length⟩ := by
  have kept : keptParts rule.keyFlg 0 (u.front ++ [u.last]) =
      frontKept u rule ++ (if lastKept u rule = true then slashed u.last else []) := by
    rw [keptAppend,keptParts,keptParts,List.append_nil,Nat.zero_add]
    rfl
  rw [UrlParts.text,List.append_assoc,scanParts u.front u.last u.query u.clean,kept]
  simp [UrlParts.frontText]

theorem scanStop : (keyScan rule.keyFlg u.text 0 0 0).query.getD u.text.length =
    u.frontText.length + (slashed u.last).length := by
  rw [scanText]
  cases query : u.query with
  | none => simp [UrlParts.text,query,queryText,UrlParts.frontText]
  | some para => rfl

theorem textLong : u.text.length = u.frontText.length + (slashed u.last).length + (queryText u.query).length := by
  rw [UrlParts.text,List.length_append,List.length_append]
  rfl

theorem textFile : slice u.text u.frontText.length (u.frontText.length + (slashed u.last).length) = slashed u.last := by
  have size : u.frontText.length + (slashed u.last).length - u.frontText.length = (slashed u.last).length := by omega
  rw [slice,size,UrlParts.text,List.append_assoc,← UrlParts.frontText,List.drop_left,List.take_left]

theorem textQuery : slice u.text (u.frontText.length + (slashed u.last).length) u.text.length = queryText u.query := by
  have size : u.text.length - (u.frontText.length + (slashed u.last).length) = (queryText u.query).length := by
    rw [textLong]
    omega
  rw [slice,size,UrlParts.text,← UrlParts.frontText,← List.length_append,List.drop_left,List.take_length]

theorem frontShort : (frontKept u rule).length ≤ u.frontText.length := (keptSublist rule.keyFlg 0 u.front).length_le

theorem m3u8Short (text : Bytes) (j : Nat) : (sohuM3u8Scan j text).length ≤ text.length := by
  induction text generalizing j with
  | nil => exact Nat.le_refl 0
  | cons b text ih =>
    have one (j : Nat) : (if j ≠ 1 then b :: sohuM3u8Scan j text else sohuM3u8Scan j text).length ≤ (b :: text).length := by
      split
      · exact Nat.succ_le_succ (ih j)
      · exact Nat.le_succ_of_le (ih j)
    exact one _

theorem fileSpecShort (parser : rule.urlFileKeyParse = none ∨ rule.urlFileKeyParse = some .sohuM3u8File) :
    (fileSpec u rule).length ≤ (slashed u.last).length ∧ (fileSpec u rule).head? ≠ some 63 := by
  unfold fileSpec
  split
  · rcases parser with plain | m3u8
    · rw [plain]
      exact ⟨Nat.le_refl _,by simp [keyParse,slashed]⟩
    · rw [m3u8]
      refine ⟨m3u8Short _ 0,?_⟩
      simp [keyParse,KeyParse.run,ngxHttpSohuM3u8FileKey,slashed,sohuM3u8Scan]
  · exact ⟨Nat.zero_le _,by simp⟩

theorem fileReadText : fileRead u.text rule = slice (overwrite u.text 0 (keyScan rule.keyFlg u.text 0 0 0).kept)
    u.frontText.length (u.frontText.length + (slashed u.last).length) := by
  unfold fileRead
  dsimp only
  rw [scanStop]
  congr 1
  rw [scanText]

theorem fileReadClear (clear : (keyScan rule.keyFlg u.text 0 0 0).kept.length ≤ u.frontText.length) :
    fileRead u.text rule = slashed u.last := by
  rw [fileReadText,sliceBehind (Nat.zero_le _) (by omega),textFile]

theorem fileKeptSame (read : fileFlag rule → fileRead u.text rule = slashed u.last) :
    fileKept u.text rule = fileSpec u rule := by
  unfold fileKept fileSpec
  split
  · rename_i flag
    rw [read flag]
  · rfl

theorem paraKeptSame (read : paraFlag u rule → paraRead u.text rule = queryText u.query) :
    paraKept u.text rule = paraSpec u rule := by
  unfold paraKept paraSpec
  rw [scanStop,textLong]
  have some_ : u.frontText.length + (slashed u.last).length <
      u.frontText.length + (slashed u.last).length + (queryText u.query).length ↔ u.query.isSome := by
    cases u.query <;> simp [queryText]
  simp only [some_]
  split
  · rename_i flag
    rw [read flag]
  · rfl

theorem paraReadText : paraRead u.text rule = slice (fileWritten u.text rule)
    (u.frontText.length + (slashed u.last).length) u.text.length := by
  unfold paraRead
  rw [scanStop]

theorem paraReadClear (short : (fileKept u.text rule).length ≤ (slashed u.last).length)
    (clear : (keyScan rule.keyFlg u.text 0 0 0).kept.length + (fileKept u.text rule).length ≤
      u.frontText.length + (slashed u.last).length) : paraRead u.text rule = queryText u.query := by
  have inside := keptShort rule.keyFlg u.text 0 0 0
  have first := overwriteLong u.text (keyScan rule.keyFlg u.text 0 0 0).kept 0
  have parsed : (keyScan rule.keyFlg u.text 0 0 0).kept.length ≤ (fileParsed u.text rule).length :=
    inside.trans (first.trans (overwriteLong ..))
  have start : (keyScan rule.keyFlg u.text 0 0 0).lastXiegan = u.frontText.length := by rw [scanText]
  have front : u.frontText.length ≤ u.text.length := by
    rw [textLong]
    omega
  rw [paraReadText,fileWritten,sliceBehind parsed clear,fileParsed,start,
    sliceBehind (front.trans first) (Nat.add_le_add_left short _),sliceBehind (Nat.zero_le _) (by omega),textQuery]

theorem keptTake (clear : (keyScan rule.keyFlg u.text 0 0 0).kept.length ≤ u.frontText.length) :
    (fileParsed u.text rule).take (keyScan rule.keyFlg u.text 0 0 0).kept.length =
      (keyScan rule.keyFlg u.text 0 0 0).kept := by
  have start : (keyScan rule.keyFlg u.text 0 0 0).lastXiegan = u.frontText.length := by rw [scanText]
  have front : u.frontText.length ≤ (overwrite u.text 0 (keyScan rule.keyFlg u.text 0 0 0).kept).length :=
    Nat.le_trans (by rw [textLong]; omega) (overwriteLong ..)
  rw [fileParsed,start,takeBefore clear front,overwriteFront]

theorem keptTakeNone (none_ : fileKept u.text rule = []) :
    (fileParsed u.text rule).take (keyScan rule.keyFlg u.text 0 0 0).kept.length =
      (keyScan rule.keyFlg u.text 0 0 0).kept := by
  rw [fileParsed,none_,overwriteNone,overwriteFront]

theorem keyParts (file : fileFlag rule → fileRead u.text rule = slashed u.last)
    (para : paraFlag u rule → paraRead u.text rule = queryText u.query) : ngxHttpSnoopingUrl2localKey u.text rule =
      (fileParsed u.text rule).take (keyScan rule.keyFlg u.text 0 0 0).kept.length ++ fileSpec u rule ++ paraSpec u rule := by
  rw [keyResult,fileKeptSame file,paraKeptSame para]

theorem keptLong : (keyScan rule.keyFlg u.text 0 0 0).kept.length =
    (frontKept u rule).length + (if lastKept u rule = true then (slashed u.last).length else 0) := by
  rw [scanText,List.length_append]
  split <;> rfl

section whole
variable (zero : dropped u rule = 0) (kept : lastKept u rule = true)
include zero kept

theorem keptWhole : (keyScan rule.keyFlg u.text 0 0 0).kept = u.frontText ++ slashed u.last := by
  have all : (frontKept u rule).length = u.frontText.length :=
    Nat.le_antisymm frontShort (Nat.sub_eq_zero_iff_le.mp zero)
  have same : frontKept u rule = u.frontText := (keptSublist rule.keyFlg 0 u.front).eq_of_length all
  rw [scanText,if_pos kept,same]

theorem dataWhole : overwrite u.text 0 (keyScan rule.keyFlg u.text 0 0 0).kept = u.text := by
  rw [keptWhole zero kept]
  exact overwriteSame (u.frontText ++ slashed u.last) (queryText u.query)

theorem fileReadWhole : fileRead u.text rule = slashed u.last := by
  rw [fileReadText,dataWhole zero kept,textFile]

theorem takeWhole (short : (fileSpec u rule).length ≤ (slashed u.last).length) :
    (fileParsed u.text rule).take (keyScan rule.keyFlg u.text 0 0 0).kept.length =
      u.frontText ++ (fileSpec u rule ++ (slashed u.last).drop (fileSpec u rule).length) := by
  have start : (keyScan rule.keyFlg u.text 0 0 0).lastXiegan = u.frontText.length := by rw [scanText]
  have text : u.text = u.frontText ++ (slashed u.last ++ queryText u.query) := by
    rw [UrlParts.text,List.append_assoc,UrlParts.frontText]
  have size : (u.frontText ++ (fileSpec u rule ++ (slashed u.last).drop (fileSpec u rule).length)).length =
      (u.frontText ++ slashed u.last).length := by
    simp only [List.length_append,List.length_drop]
    omega
  rw [fileParsed,start,dataWhole zero kept,fileKeptSame fun _ => fileReadWhole zero kept,keptWhole zero kept,text,
    overwrite,List.take_left,← List.drop_drop,List.drop_left,List.drop_append_of_le_length short,← size]
  simp only [← List.append_assoc,List.take_left]

theorem paraReadWhole (query : u.query.isSome) (some_ : fileSpec u rule ≠ []) :
    (paraRead u.text rule).head? = (fileSpec u rule).head? := by
  have size : (keyScan rule.keyFlg u.text 0 0 0).kept.length = u.frontText.length + (slashed u.last).length := by
    rw [keptWhole zero kept,List.length_append]
  have inside : u.frontText.length + (slashed u.last).length ≤ (fileParsed u.text rule).length := by
    have long : u.text.length ≤ (fileParsed u.text rule).length :=
      (overwriteLong ..).trans (overwriteLong ..)
    rw [textLong] at long
    omega
  have wide : u.frontText.length + (slashed u.last).length < u.text.length := by
    obtain ⟨para,same⟩ := Option.isSome_iff_exists.mp query
    rw [textLong,same,queryText,List.length_cons]
    omega
  rw [paraReadText,fileWritten,size,fileKeptSame fun _ => fileReadWhole zero kept]
  exact sliceHead inside some_ wide

end whole

theorem fileReadMoved (kept : lastKept u rule = true) (some_ : 0 < dropped u rule)
    (near : dropped u rule < (slashed u.last).length) : fileRead u.text rule ≠ slashed u.last := by
  have shift : u.frontText.length = (frontKept u rule).length + dropped u rule := by
    have short := @frontShort u rule
    unfold dropped
    omega
  obtain ⟨more,size⟩ := Nat.exists_eq_add_of_lt some_
  rw [Nat.zero_add] at size
  have name : more < u.last.length := by
    rw [size,slashed,List.length_cons] at near
    omega
  have data : overwrite u.text 0 (keyScan rule.keyFlg u.text 0 0 0).kept =
      frontKept u rule ++ (slashed u.last ++ u.text.drop (keyScan rule.keyFlg u.text 0 0 0).kept.length) := by
    rw [overwrite,List.take_zero,List.nil_append,Nat.zero_add,scanText,if_pos kept,List.append_assoc]
  have behind : (overwrite u.text 0 (keyScan rule.keyFlg u.text 0 0 0).kept).drop u.frontText.length =
      u.last[more] :: (u.last.drop (more + 1) ++ u.text.drop (keyScan rule.keyFlg u.text 0 0 0).kept.length) := by
    rw [data,shift,← List.drop_drop,List.drop_left,size,slashed,List.cons_append,List.drop_succ_cons,
      List.drop_append_of_le_length name.le,List.drop_eq_getElem_cons name,List.cons_append]
  have width : u.frontText.length + (slashed u.last).length - u.frontText.length = u.last.length + 1 := by
    rw [slashed,List.length_cons]
    omega
  rw [fileReadText,slice,behind,width,List.take_succ_cons]
  intro same
  have slash : u.last[more] = 47 := (List.cons.inj same).1
  exact (u.clean u.last (by simp)).1 (slash ▸ List.getElem_mem name)

theorem keptText : (keyScan rule.keyFlg u.text 0 0 0).kept = keptParts rule.keyFlg 0 (u.front ++ [u.last]) := by
  rw [UrlParts.text,List.append_assoc,scanParts u.front u.last u.query u.clean]

theorem keyMade (only : onlyTen rule.keyFlg 0 (u.front ++ [u.last]))
    (file : fileFlag rule → fileRead u.text rule = slashed u.last)
    (para : paraFlag u rule → paraRead u.text rule = queryText u.query)
    (taken : (fileParsed u.text rule).take (keyScan rule.keyFlg u.text 0 0 0).kept.length =
      (keyScan rule.keyFlg u.text 0 0 0).kept) : KeyMade u rule := by
  refine ⟨?_,file,para⟩
  rw [keyParts file para,taken,keptText,partsMade only]
  rfl

section settled
variable (parser : rule.urlFileKeyParse = none ∨ rule.urlFileKeyParse = some .sohuM3u8File)
include parser

theorem clearMade (clear : KeyClear u rule) : KeyMade u rule := by
  have short := (fileSpecShort (u := u) parser).1
  have far (apart : (keyScan rule.keyFlg u.text 0 0 0).kept.length ≤ u.frontText.length) : KeyMade u rule := by
    have read (_ : fileFlag rule) : fileRead u.text rule = slashed u.last := fileReadClear apart
    have same := fileKeptSame read
    exact keyMade clear.only read (fun _ => paraReadClear (by rw [same]; exact short) (by rw [same]; omega)) (keptTake apart)
  have size := @keptLong u rule
  have front := @frontShort u rule
  by_cases flag : fileFlag rule
  · cases kept : lastKept u rule with
    | false =>
      rw [kept,if_neg (by simp)] at size
      exact far (by omega)
    | true =>
      rw [kept,if_pos rfl] at size
      rcases clear.room flag kept with moved | ⟨zero,begins,free⟩
      · unfold dropped at moved
        exact far (by omega)
      · have whole := keptWhole zero kept
        obtain ⟨rest,same⟩ := begins
        refine keyMade clear.only (fun _ => fileReadWhole zero kept) (fun query => ?_) ?_
        · have none_ : fileSpec u rule = [] := free.resolve_right (not_not.mpr query)
          have empty : (fileKept u.text rule).length = 0 := by
            rw [fileKeptSame fun _ => fileReadWhole zero kept,none_]
            rfl
          refine paraReadClear (by omega) ?_
          rw [whole,List.length_append,empty]
          exact Nat.le_refl _
        · have tail : (slashed u.last).drop (fileSpec u rule).length = rest := by rw [← same,List.drop_left]
          rw [takeWhole zero kept short,tail,same,whole]
  · have none_ : fileKept u.text rule = [] := if_neg flag
    refine keyMade clear.only (fun on => absurd on flag) (fun _ => ?_) (keptTakeNone none_)
    refine paraReadClear (by rw [none_]; exact Nat.zero_le _) ?_
    rw [none_,List.length_nil]
    split at size <;> omega

theorem madeClear (made : KeyMade u rule) : KeyClear u rule := by
  have short := (fileSpecShort (u := u) parser).1
  have parts := made.spec
  rw [keyParts made.file made.para,keySpec] at parts
  have taken := List.append_cancel_right (List.append_cancel_right parts)
  have long : (keyScan rule.keyFlg u.text 0 0 0).kept.length ≤ (fileParsed u.text rule).length :=
    (keptShort rule.keyFlg u.text 0 0 0).trans ((overwriteLong ..).trans (overwriteLong ..))
  have only : onlyTen rule.keyFlg 0 (u.front ++ [u.last]) := by
    refine partsExact ?_
    rw [← taken,List.length_take_of_le long,keptText]
  refine ⟨only,fun flag kept => ?_⟩
  rcases Nat.lt_or_ge (dropped u rule) (slashed u.last).length with near | far
  · have zero : dropped u rule = 0 := by
      by_contra some_
      exact fileReadMoved kept (Nat.pos_of_ne_zero some_) near (made.file flag)
    refine .inr ⟨zero,?_,?_⟩
    · rw [takeWhole zero kept short,← partsMade only,← keptText,keptWhole zero kept] at taken
      exact ⟨_,List.append_cancel_left taken⟩
    · by_contra both
      obtain ⟨some_,query⟩ := not_or.mp both
      have head := paraReadWhole zero kept (not_not.mp query).1 some_
      rw [made.para (not_not.mp query)] at head
      obtain ⟨para,same⟩ := Option.isSome_iff_exists.mp (not_not.mp query).1
      rw [same] at head
      exact (fileSpecShort (u := u) parser).2 head.symm
  · exact .inl far

end settled

/-- The key of a URL is made of its parts, and nothing is overwritten before it is read, exactly when no part beyond the
tenth is kept for another bit and the last part is not kept twice with too little left out before it. -/
theorem keyMadeExactly (u : UrlParts) (rule : Rule)
    (parser : rule.urlFileKeyParse = none ∨ rule.urlFileKeyParse = some .sohuM3u8File) :
    KeyMade u rule ↔ KeyClear u rule :=
  ⟨madeClear parser,clearMade parser⟩

end exactness

theorem partsOf (rest : Bytes) : ∃ u : UrlParts,u.text = 47 :: rest := by
  induction rest with
  | nil => exact ⟨⟨[],[],none,by simp⟩,rfl⟩
  | cons b rest ih =>
    obtain ⟨⟨front,last,query,clean⟩,same⟩ := ih
    by_cases mark : b = 63
    · exact ⟨⟨[],[],some rest,by simp⟩,by rw [mark]; rfl⟩
    by_cases slash : b = 47
    · refine ⟨⟨[] :: front,last,query,?_⟩,by rw [slash,← same]; rfl⟩
      intro name mem
      rcases List.mem_cons.mp mem with empty | inside
      · simp [empty]
      · exact clean name inside
    have longer {name : Bytes} (old : 47 ∉ name ∧ 63 ∉ name) : 47 ∉ b :: name ∧ 63 ∉ b :: name := by
      simp [old,Ne.symm mark,Ne.symm slash]
    cases front with
    | nil =>
      refine ⟨⟨[],b :: last,query,?_⟩,?_⟩
      · intro name mem
        rw [List.mem_singleton.mp mem]
        exact longer (clean last (by simp))
      · have tail : last ++ queryText query = rest := (List.cons.inj same).2
        rw [← tail]
        rfl
    | cons first front =>
      refine ⟨⟨(b :: first) :: front,last,query,?_⟩,?_⟩
      · intro name mem
        rcases List.mem_cons.mp mem with here | inside
        · rw [here]
          exact longer (clean first (by simp))
        · exact clean name (List.mem_cons_of_mem _ inside)
      · have tail : first ++ front.flatMap slashed ++ slashed last ++ queryText query = rest := (List.cons.inj same).2
        rw [← tail]
        simp [UrlParts.text,slashed]

def showUrl : UrlParts := ⟨[ascii "v.youku.com",ascii "v_show"],ascii "id_1.html",some (ascii "f=2"),by decide⟩
def showRule : Rule :=
  { cacheFlg := { parsePage with headXiegan := true,postFile := true },keyFlg := httpCacheKeyHost + httpCacheKeyFile,
    headXiegan := ascii "/v_show",postFile := ascii ".html" }

theorem showKeyMade : KeyMade showUrl showRule := by
  refine (keyMadeExactly showUrl showRule (.inl rfl)).mpr ⟨fun j ten _ high => ?_,fun _ kept => ?_⟩
  · have few : j < 3 := high
    omega
  · exact absurd kept (by decide)

def deepUrl : UrlParts :=
  ⟨ascii "pl.youku.com" :: ascii "playlist" :: "123456789a".toList.map (fun c => ascii (String.singleton c)),ascii "m3u8",
    some (ascii "vid=1"),by decide⟩
def deepRule : Rule :=
  { cacheFlg := { parsePage with headXiegan := true,tailXiegan := true },
    keyFlg := httpCacheKeyHost + httpCacheKeyXiegan 1 + httpCacheKeyXiegan 2 + httpCacheKeyPara,
    headXiegan := ascii "/playlist",tailXiegan := ascii "/m3u8",urlParaKeyParse := some .plYouku }

theorem deepKeyAmiss : deepRule ∈ httpPlYoukuFlvpathUrlStr ∧
    ngxHttpSnoopingUrl2localKey deepUrl.text deepRule = ascii "/pl.youku.com/playlist/1/a_vid=1" ∧
    keySpec deepUrl deepRule = ascii "/pl.youku.com/playlist/1_vid=1" ∧ ¬KeyMade deepUrl deepRule := by
  refine ⟨by decide,by decide,by decide,fun made => ?_⟩
  exact absurd made.spec (by decide)

end MipsElfExec.Snooping

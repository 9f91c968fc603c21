import MipsElfExec.Snooping.Table
import MipsElfExec.Snooping.FileShare

/-! What the four entries to the table write to their buffers on the way to an entry, with the NULs, and which lengths
they let pass. -/
namespace MipsElfExec.Snooping
open CString

def httpLocalFileRootMax : Nat := 64

inductive Buffer where
  | urlTmpBuf | keyBuf | urlBuf
  deriving DecidableEq, Repr

structure Write where
  buffer : Buffer
  start : Int
  count : Nat
  deriving DecidableEq, Repr

def Buffer.size (tmp : Nat) : Buffer → Nat
  | .urlTmpBuf => tmp
  | .keyBuf => httpSpLfileLenMax
  | .urlBuf => httpSpUrlLenMax

def Write.inside (tmp : Nat) (w : Write) : Prop := 0 ≤ w.start ∧ w.start + w.count ≤ w.buffer.size tmp

-- The '_' goes before the tag. The parser of sohu also writes on the slashes behind it, and ends the text with a NUL.
def KeyParse.writes (parse : KeyParse) (start : Nat) (text : Bytes) : List Write :=
  match parse.tag with
  | none => [⟨.urlTmpBuf,start,(parse.run text).length⟩]
  | some (tag,ends,slash) =>
    match search tag text with
    | none => []
    | some i =>
      let found := (paraScan slash ends (text.drop i)).length
      ⟨.urlTmpBuf,start + i - 1,1⟩ ::
        if slash then [⟨.urlTmpBuf,start + i,found⟩,⟨.urlTmpBuf,start + i + found,1⟩] else []

def parseWrites (parse : Option KeyParse) (start : Nat) (text : Bytes) : List Write :=
  match parse with
  | some p => p.writes start text
  | none => []

def ngxHttpSnoopingUrl2localKeyWrites (urlName : Bytes) (rule : Rule) : List Write :=
  let scan := keyScan rule.keyFlg urlName 0 0 0
  let stop := scan.query.getD urlName.length
  let file := fileKept urlName rule
  let para := paraKept urlName rule
  [⟨.urlTmpBuf,0,scan.kept.length⟩] ++
  (if rule.keyFlg &&& httpCacheKeyFile ≠ 0 then
    parseWrites rule.urlFileKeyParse scan.lastXiegan (fileRead urlName rule) ++ [⟨.urlTmpBuf,scan.kept.length,file.length⟩]
  else []) ++
  (if stop < urlName.length ∧ rule.keyFlg &&& httpCacheKeyPara ≠ 0 then
    parseWrites rule.urlParaKeyParse stop (paraRead urlName rule) ++
      [⟨.urlTmpBuf,scan.kept.length + file.length,para.length⟩]
  else []) ++
  [⟨.urlTmpBuf,(ngxHttpSnoopingUrl2localKey urlName rule).length,1⟩]

def urlKeyWrites (name : Bytes) : List Write :=
  [⟨.urlTmpBuf,0,1⟩,⟨.urlTmpBuf,1,name.length⟩,⟨.urlTmpBuf,name.length + 1,1⟩]

def keyBufWrites (key : Bytes) : List Write := [⟨.keyBuf,0,key.length⟩,⟨.keyBuf,key.length,1⟩]
def urlBufWrites (name : Bytes) : List Write := [⟨.urlBuf,0,name.length⟩,⟨.urlBuf,name.length,1⟩]

inductive Slot where
  | found | fresh | full
  deriving DecidableEq, Repr

def ngxHttpSpUrlidGetWrites (name : Bytes) : List Write :=
  if httpSpUrlLenMax - 1 < name.length then []
  else match ngxHttpUrlRuleGet name with
  | none => []
  | some rule => urlKeyWrites name ++ ngxHttpSnoopingUrl2localKeyWrites (47 :: name) rule

def ngxHttpSpUrlHandleWrites (name : Bytes) (action : C2spAction) (slot : Slot) : List Write :=
  if httpSpUrlLenMax - 1 < name.length then []
  else match ngxHttpUrlRuleGet name with
  | none => []
  | some rule =>
    if rule.cacheFlg.actionCacheUpstream = false then []
    else
      let key := ngxHttpSnoopingUrl2localKey (47 :: name) rule
      urlKeyWrites name ++ ngxHttpSnoopingUrl2localKeyWrites (47 :: name) rule ++
        if httpSpLfileLenMax ≤ key.length then []
        else match action,slot with
        | .add,.fresh => keyBufWrites key ++ urlBufWrites name
        | _,_ => []

def ngxHttpYoukuUrlAddWrites (name : Bytes) (slot : Slot) : List Write :=
  if httpSpUrlLenMax - 1 < name.length + 1 then []
  else match ngxHttpUrlRuleGet name with
  | none => []
  | some rule =>
    let key := ngxHttpSnoopingUrl2localKey (47 :: name) rule
    urlKeyWrites name ++ ngxHttpSnoopingUrl2localKeyWrites (47 :: name) rule ++
      if httpSpLfileLenMax < key.length then []
      else match slot with
      | .fresh => keyBufWrites key ++ urlBufWrites name
      | .found => urlBufWrites name
      | .full => []

-- Here the rule is looked up in the buffer itself, with a NUL for the slash behind the host.
def ngxHttpSnoopingUrlRecordWrites (server res : Bytes) (slot : Slot) : List Write :=
  if httpSpUrlLenMax - 1 < server.length + res.length + 1 then []
  else
    let name := server ++ res
    let patch := if urlHost name = [] ∨ name.dropWhile (· ≠ 47) = [] then []
      else [⟨.urlTmpBuf,1 + (urlHost name).length,1⟩,⟨.urlTmpBuf,1 + (urlHost name).length,1⟩]
    [⟨.urlTmpBuf,0,1⟩,⟨.urlTmpBuf,1,server.length⟩,⟨.urlTmpBuf,server.length + 1,res.length⟩,
      ⟨.urlTmpBuf,server.length + res.length + 1,1⟩] ++ patch ++
    match ngxHttpUrlRuleGet name with
    | none => []
    | some rule =>
      let key := ngxHttpSnoopingUrl2localKey (47 :: name) rule
      let held := [⟨.urlBuf,0,server.length⟩,⟨.urlBuf,server.length,res.length⟩,⟨.urlBuf,server.length + res.length,1⟩]
      ngxHttpSnoopingUrl2localKeyWrites (47 :: name) rule ++
        if httpSpLfileLenMax < key.length ∨ rule.cacheFlg.actionCacheSp = false then []
        else match slot with
        | .fresh => keyBufWrites key ++ held
        | .found | .full => []

def keyLength (name : Bytes) (rule : Rule) : Nat := (ngxHttpSnoopingUrl2localKey (47 :: name) rule).length

def urlidGetFits (name : Bytes) (rule : Rule) : Prop :=
  ¬httpSpUrlLenMax - 1 < name.length ∧ ¬httpSpLfileLenMax ≤ keyLength name rule
def urlHandleFits (name : Bytes) (rule : Rule) : Prop :=
  ¬httpSpUrlLenMax - 1 < name.length ∧ ¬httpSpLfileLenMax ≤ keyLength name rule
def youkuUrlAddFits (name : Bytes) (rule : Rule) : Prop :=
  ¬httpSpUrlLenMax - 1 < name.length + 1 ∧ ¬httpSpLfileLenMax < keyLength name rule
def urlRecordFits (server res : Bytes) (rule : Rule) : Prop :=
  ¬httpSpUrlLenMax - 1 < server.length + res.length + 1 ∧ ¬httpSpLfileLenMax < keyLength (server ++ res) rule

structure AdmissionSafe (name : Bytes) : Prop where
  urlidGet : ∀ w ∈ ngxHttpSpUrlidGetWrites name,w.inside httpSpUrlLenMax
  urlHandle (action : C2spAction) (slot : Slot) : ∀ w ∈ ngxHttpSpUrlHandleWrites name action slot,w.inside httpSpUrlLenMax
  youkuUrlAdd (slot : Slot) : ∀ w ∈ ngxHttpYoukuUrlAddWrites name slot,w.inside (httpSpUrlLenMax + httpLocalFileRootMax)
  urlRecord (server res : Bytes) (slot : Slot) : server ++ res = name →
    ∀ w ∈ ngxHttpSnoopingUrlRecordWrites server res slot,w.inside httpSpUrlLenMax
  agree (rule : Rule) : ngxHttpUrlRuleGet name = some rule →
    (urlidGetFits name rule ↔ urlHandleFits name rule) ∧ (urlHandleFits name rule ↔ youkuUrlAddFits name rule) ∧
    ∀ server res,server ++ res = name → (youkuUrlAddFits name rule ↔ urlRecordFits server res rule)

section tests
variable {name key server res : Bytes} {rule : Rule} {action : C2spAction}

theorem urlHandleFind : (∃ next,ngxHttpSpUrlHandle name action = .step (.find key) next) ↔
    ∃ rule,ngxHttpUrlRuleGet name = some rule ∧ rule.cacheFlg.actionCacheUpstream = true ∧ urlHandleFits name rule ∧
      key = ngxHttpSnoopingUrl2localKey (47 :: name) rule := by
  unfold ngxHttpSpUrlHandle urlHandleFits keyLength
  split
  · rename_i long
    simp [long]
  · rename_i short
    cases ngxHttpUrlRuleGet name with
    | none => simp
    | some rule =>
      cases upstream : rule.cacheFlg.actionCacheUpstream with
      | false => simp [upstream]
      | true =>
        dsimp only
        rw [if_neg (by simp [upstream])]
        simp only [Option.some.injEq]
        split
        · rename_i long
          simp [long]
        · rename_i fits
          constructor
          · rintro ⟨next,same⟩
            cases same
            exact ⟨rule,rfl,upstream,⟨short,fits⟩,rfl⟩
          · rintro ⟨_,rfl,_,_,rfl⟩
            exact ⟨_,rfl⟩

theorem youkuUrlAddFind : (∃ next,ngxHttpYoukuUrlAdd name = .step (.find key) next) ↔
    ∃ rule,ngxHttpUrlRuleGet name = some rule ∧ youkuUrlAddFits name rule ∧
      key = ngxHttpSnoopingUrl2localKey (47 :: name) rule := by
  unfold ngxHttpYoukuUrlAdd youkuUrlAddFits keyLength
  split
  · rename_i long
    simp [long]
  · rename_i short
    cases ngxHttpUrlRuleGet name with
    | none => simp
    | some rule =>
      simp only [Option.some.injEq]
      split
      · rename_i long
        simp [long]
      · rename_i fits
        constructor
        · rintro ⟨next,same⟩
          cases same
          exact ⟨rule,rfl,⟨short,fits⟩,rfl⟩
        · rintro ⟨_,rfl,_,rfl⟩
          exact ⟨_,rfl⟩

theorem urlRecordFind : recordTarget server res = some (rule,key) ↔
    ngxHttpUrlRuleGet (server ++ res) = some rule ∧ urlRecordFits server res rule ∧
      key = ngxHttpSnoopingUrl2localKey (47 :: (server ++ res)) rule := by
  unfold recordTarget urlRecordFits keyLength
  split
  · rename_i long
    simp [long]
  · rename_i short
    cases ngxHttpUrlRuleGet (server ++ res) with
    | none => simp
    | some held =>
      dsimp only
      split
      · rename_i long
        simp only [reduceCtorEq,Option.some.injEq,false_iff]
        rintro ⟨rfl,fits,_⟩
        exact fits.2 long
      · rename_i fits
        simp only [Option.some.injEq,Prod.mk.injEq]
        constructor
        · rintro ⟨rfl,rfl⟩
          exact ⟨rfl,⟨short,fits⟩,rfl⟩
        · rintro ⟨rfl,_,rfl⟩
          exact ⟨rfl,rfl⟩

end tests

section bounds
variable {urlName name : Bytes} {rule : Rule} {tmp : Nat}

theorem sliceShort (data : Bytes) (a b : Nat) : (slice data a b).length ≤ b - a := by
  rw [slice,List.length_take]
  exact Nat.min_le_left _ _

theorem paraScanShort (slash : Bool) (ends : Nat) (text : Bytes) : (paraScan slash ends text).length ≤ text.length := by
  induction text generalizing ends with
  | nil => exact Nat.le_refl 0
  | cons b text ih =>
    unfold paraScan
    split
    · split
      · exact Nat.zero_le _
      · exact Nat.succ_le_succ (ih _)
    · exact Nat.succ_le_succ (ih _)

theorem parserInside {parse : KeyParse} {start : Nat} {text : Bytes} (above : 0 < start ∨ parse = .sohuM3u8File)
    (room : start + text.length + 1 ≤ tmp) : ∀ w ∈ parse.writes start text,w.inside tmp := by
  intro w mem
  unfold KeyParse.writes at mem
  cases named : parse.tag with
  | none =>
    have m3u8 : parse = .sohuM3u8File := by cases parse <;> cases named; rfl
    rw [named] at mem
    cases List.mem_singleton.mp mem
    have short : (parse.run text).length ≤ text.length := by
      rw [m3u8]
      exact m3u8Short text 0
    exact ⟨by dsimp only; omega,by dsimp only [Buffer.size]; omega⟩
  | some how =>
    obtain ⟨tag,ends,slash⟩ := how
    have start_ : 0 < start := above.resolve_right fun m3u8 => by
      rw [m3u8] at named
      cases named
    rw [named] at mem
    dsimp only at mem
    cases found : search tag text with
    | none =>
      rw [found] at mem
      cases mem
    | some i =>
      have bound := searchBound found
      have short := paraScanShort slash ends (text.drop i)
      rw [List.length_drop] at short
      rw [found] at mem
      rcases List.mem_cons.mp mem with rfl | more
      · exact ⟨by dsimp only; omega,by dsimp only [Buffer.size]; omega⟩
      · cases slash with
        | false => cases more
        | true =>
          simp only [if_true,List.mem_cons,List.not_mem_nil,or_false] at more
          rcases more with rfl | rfl
          · exact ⟨by dsimp only; omega,by dsimp only [Buffer.size]; omega⟩
          · exact ⟨by dsimp only; omega,by dsimp only [Buffer.size]; omega⟩

theorem scanPlaces (keyFlg : Nat) (text : Bytes) (i slashes last : Nat) (before : last ≤ i) :
    (keyScan keyFlg text i slashes last).lastXiegan ≤ (keyScan keyFlg text i slashes last).query.getD (i + text.length) ∧
    i ≤ (keyScan keyFlg text i slashes last).query.getD (i + text.length) ∧
    (keyScan keyFlg text i slashes last).query.getD (i + text.length) ≤ i + text.length := by
  induction text generalizing i slashes last with
  | nil => exact ⟨before,Nat.le_refl i,Nat.le_refl i⟩
  | cons b text ih =>
    have next : i + (b :: text).length = i + 1 + text.length := by rw [List.length_cons]; omega
    unfold keyScan
    rw [next]
    split
    · exact ⟨before,Nat.le_refl i,by dsimp only [Option.getD_some]; omega⟩
    · have step := ih (i + 1) (if b = 47 then slashes + 1 else slashes) (if b = 47 then i else last) (by split <;> omega)
      generalize (if b = 47 then slashes + 1 else slashes) = count at step ⊢
      generalize (if b = 47 then i else last) = place at step ⊢
      dsimp only
      split <;> exact ⟨step.1,Nat.le_of_succ_le step.2.1,step.2.2⟩

theorem keyLengths (urlName : Bytes) (rule : Rule) : (ngxHttpSnoopingUrl2localKey urlName rule).length =
    (keyScan rule.keyFlg urlName 0 0 0).kept.length + (fileKept urlName rule).length + (paraKept urlName rule).length := by
  have short := keptShort rule.keyFlg urlName 0 0 0
  have long : urlName.length ≤ (fileParsed urlName rule).length := (overwriteLong _ _ _).trans (overwriteLong _ _ _)
  rw [keyResult,List.length_append,List.length_append,List.length_take_of_le (short.trans long)]

theorem keyWritesInside (parser : rule.urlFileKeyParse = none ∨ rule.urlFileKeyParse = some .sohuM3u8File)
    (room : (47 :: name).length + 1 ≤ tmp) (fits : (ngxHttpSnoopingUrl2localKey (47 :: name) rule).length + 1 ≤ tmp) :
    ∀ w ∈ ngxHttpSnoopingUrl2localKeyWrites (47 :: name) rule,w.inside tmp := by
  intro w mem
  have size := keyLengths (47 :: name) rule
  have places := scanPlaces rule.keyFlg (47 :: name) 0 0 0 (Nat.le_refl 0)
  have behind : 0 < (keyScan rule.keyFlg (47 :: name) 0 0 0).query.getD (47 :: name).length := by
    have later := (scanPlaces rule.keyFlg name 1 1 0 (Nat.zero_le _)).2.1
    have long : (47 :: name).length = 1 + name.length := by rw [List.length_cons]; omega
    rw [keyScan,if_neg (by decide),long]
    dsimp only
    rw [if_pos rfl,if_pos rfl]
    split <;> exact later
  rw [Nat.zero_add] at places
  unfold ngxHttpSnoopingUrl2localKeyWrites at mem
  dsimp only at mem
  simp only [List.mem_append,List.mem_singleton,or_assoc] at mem
  rcases mem with rfl | file | para | rfl
  · exact ⟨by dsimp only; omega,by dsimp only [Buffer.size]; omega⟩
  · split at file
    · rcases List.mem_append.mp file with parsed | copied
      · have short := sliceShort (overwrite (47 :: name) 0 (keyScan rule.keyFlg (47 :: name) 0 0 0).kept)
          (keyScan rule.keyFlg (47 :: name) 0 0 0).lastXiegan
          ((keyScan rule.keyFlg (47 :: name) 0 0 0).query.getD (47 :: name).length)
        rcases parser with none_ | m3u8
        · rw [none_] at parsed
          cases parsed
        · rw [m3u8] at parsed
          refine parserInside (.inr rfl) ?_ w parsed
          unfold fileRead
          dsimp only
          omega
      · cases List.mem_singleton.mp copied
        exact ⟨by dsimp only; omega,by dsimp only [Buffer.size]; omega⟩
    · cases file
  · split at para
    · rcases List.mem_append.mp para with parsed | copied
      · have short := sliceShort (fileWritten (47 :: name) rule)
          ((keyScan rule.keyFlg (47 :: name) 0 0 0).query.getD (47 :: name).length) (47 :: name).length
        cases parse : rule.urlParaKeyParse with
        | none =>
          rw [parse] at parsed
          cases parsed
        | some p =>
          rw [parse] at parsed
          refine parserInside (.inl behind) ?_ w parsed
          unfold paraRead
          omega
      · cases List.mem_singleton.mp copied
        exact ⟨by dsimp only; omega,by dsimp only [Buffer.size]; omega⟩
    · cases para
  · exact ⟨by dsimp only; omega,by dsimp only [Buffer.size]; omega⟩

theorem urlKeyInside (room : name.length + 2 ≤ tmp) : ∀ w ∈ urlKeyWrites name,w.inside tmp := by
  intro w mem
  simp only [urlKeyWrites,List.mem_cons,List.not_mem_nil,or_false] at mem
  rcases mem with rfl | rfl | rfl <;> exact ⟨by dsimp only; omega,by dsimp only [Buffer.size]; omega⟩

theorem keyBufInside {key : Bytes} (room : key.length < httpSpLfileLenMax) : ∀ w ∈ keyBufWrites key,w.inside tmp := by
  intro w mem
  simp only [keyBufWrites,List.mem_cons,List.not_mem_nil,or_false] at mem
  rcases mem with rfl | rfl <;> exact ⟨by dsimp only; omega,by dsimp only [Buffer.size]; omega⟩

theorem urlBufInside (room : name.length < httpSpUrlLenMax) : ∀ w ∈ urlBufWrites name,w.inside tmp := by
  intro w mem
  simp only [urlBufWrites,List.mem_cons,List.not_mem_nil,or_false] at mem
  rcases mem with rfl | rfl <;> exact ⟨by dsimp only; omega,by dsimp only [Buffer.size]; omega⟩

end bounds

section admission
variable {name server res : Bytes} {rule : Rule} {w : Write} {slot : Slot}

theorem rulesFile : ∀ rule ∈ cacheRules,rule.urlFileKeyParse = none ∨ rule.urlFileKeyParse = some .sohuM3u8File := by
  decide

def Admissible (name : Bytes) (rule : Rule) : Prop :=
  name.length + 1 < httpSpUrlLenMax ∧ keyLength name rule ≠ httpSpLfileLenMax ∧ keyLength name rule < httpSpUrlLenMax

theorem tmpInside {tmp : Nat} (wide : httpSpUrlLenMax ≤ tmp) (accepted : ngxHttpUrlRuleGet name = some rule)
    (lengths : Admissible name rule) :
    ∀ w ∈ urlKeyWrites name ++ ngxHttpSnoopingUrl2localKeyWrites (47 :: name) rule,w.inside tmp := by
  obtain ⟨short,_,fits⟩ := lengths
  have long : (47 :: name).length = name.length + 1 := rfl
  unfold keyLength at fits
  intro w mem
  rcases List.mem_append.mp mem with url | key
  · exact urlKeyInside (by omega) w url
  · exact keyWritesInside (rulesFile rule (acceptedUrl accepted).2.2) (by omega) (by omega) w key

theorem urlidGetInside (lengths : ∀ rule,ngxHttpUrlRuleGet name = some rule →
    httpSpUrlLenMax - 1 < name.length ∨ Admissible name rule) : ∀ w ∈ ngxHttpSpUrlidGetWrites name,w.inside httpSpUrlLenMax := by
  intro w mem
  unfold ngxHttpSpUrlidGetWrites at mem
  split at mem
  · cases mem
  · rename_i short
    cases accepted : ngxHttpUrlRuleGet name with
    | none =>
      rw [accepted] at mem
      cases mem
    | some rule =>
      rw [accepted] at mem
      exact tmpInside (Nat.le_refl _) accepted ((lengths rule accepted).resolve_left short) w mem

theorem urlHandleInside (lengths : ∀ rule,ngxHttpUrlRuleGet name = some rule →
    httpSpUrlLenMax - 1 < name.length ∨ Admissible name rule) (action : C2spAction) (slot : Slot) :
    ∀ w ∈ ngxHttpSpUrlHandleWrites name action slot,w.inside httpSpUrlLenMax := by
  intro w mem
  unfold ngxHttpSpUrlHandleWrites at mem
  split at mem
  · cases mem
  · rename_i short
    cases accepted : ngxHttpUrlRuleGet name with
    | none =>
      rw [accepted] at mem
      cases mem
    | some rule =>
      have room := (lengths rule accepted).resolve_left short
      rw [accepted] at mem
      dsimp only at mem
      split at mem
      · cases mem
      · rcases List.mem_append.mp mem with made | stored
        · exact tmpInside (Nat.le_refl _) accepted room w made
        · split at stored
          · cases stored
          · rename_i key
            split at stored
            · rcases List.mem_append.mp stored with keyed | held
              · exact keyBufInside (Nat.lt_of_not_le key) w keyed
              · exact urlBufInside (Nat.lt_of_succ_lt room.1) w held
            · cases stored

theorem youkuUrlAddInside (lengths : ∀ rule,ngxHttpUrlRuleGet name = some rule →
    httpSpUrlLenMax - 1 < name.length ∨ Admissible name rule) (slot : Slot) :
    ∀ w ∈ ngxHttpYoukuUrlAddWrites name slot,w.inside (httpSpUrlLenMax + httpLocalFileRootMax) := by
  intro w mem
  unfold ngxHttpYoukuUrlAddWrites at mem
  split at mem
  · cases mem
  · rename_i short
    cases accepted : ngxHttpUrlRuleGet name with
    | none =>
      rw [accepted] at mem
      cases mem
    | some rule =>
      have room := (lengths rule accepted).resolve_left (by omega)
      have held : ∀ w ∈ urlBufWrites name,w.inside (httpSpUrlLenMax + httpLocalFileRootMax) :=
        urlBufInside (Nat.lt_of_succ_lt room.1)
      rw [accepted] at mem
      dsimp only at mem
      rcases List.mem_append.mp mem with made | stored
      · exact tmpInside (Nat.le_add_right _ _) accepted room w made
      · split at stored
        · cases stored
        · rename_i key
          have fits : (ngxHttpSnoopingUrl2localKey (47 :: name) rule).length < httpSpLfileLenMax :=
            Nat.lt_of_le_of_ne (Nat.le_of_not_lt key) room.2.1
          cases slot with
          | found => exact held w stored
          | fresh => exact (List.mem_append.mp stored).elim (keyBufInside fits w) (held w)
          | full => cases stored

theorem urlRecordInside (lengths : ∀ rule,ngxHttpUrlRuleGet (server ++ res) = some rule →
    httpSpUrlLenMax - 1 < (server ++ res).length ∨ Admissible (server ++ res) rule) (slot : Slot) :
    ∀ w ∈ ngxHttpSnoopingUrlRecordWrites server res slot,w.inside httpSpUrlLenMax := by
  intro w mem
  have size : (server ++ res).length = server.length + res.length := List.length_append
  have host : (urlHost (server ++ res)).length ≤ (server ++ res).length := (List.takeWhile_prefix _).length_le
  unfold ngxHttpSnoopingUrlRecordWrites at mem
  split at mem
  · cases mem
  · rename_i short
    dsimp only at mem
    simp only [List.mem_append,or_assoc] at mem
    rcases mem with copied | patched | made
    · simp only [List.mem_cons,List.not_mem_nil,or_false] at copied
      have limit : httpSpUrlLenMax = 600 := rfl
      rcases copied with rfl | rfl | rfl | rfl <;> exact ⟨by dsimp only; omega,by dsimp only [Buffer.size]; omega⟩
    · split at patched
      · cases patched
      · simp only [List.mem_cons,List.not_mem_nil,or_false] at patched
        have limit : httpSpUrlLenMax = 600 := rfl
        rcases patched with rfl | rfl <;> exact ⟨by dsimp only; omega,by dsimp only [Buffer.size]; omega⟩
    · cases accepted : ngxHttpUrlRuleGet (server ++ res) with
      | none =>
        rw [accepted] at made
        cases made
      | some rule =>
        have room := (lengths rule accepted).resolve_left (by omega)
        have held : ∀ w ∈ [(⟨.urlBuf,0,server.length⟩ : Write),⟨.urlBuf,server.length,res.length⟩,
            ⟨.urlBuf,server.length + res.length,1⟩],w.inside httpSpUrlLenMax := by
          intro w inside
          have enough := room.1
          simp only [List.mem_cons,List.not_mem_nil,or_false] at inside
          rcases inside with rfl | rfl | rfl <;> exact ⟨by dsimp only; omega,by dsimp only [Buffer.size]; omega⟩
        rw [accepted] at made
        dsimp only at made
        rcases List.mem_append.mp made with keyed | stored
        · exact tmpInside (Nat.le_refl _) accepted room w (List.mem_append_right _ keyed)
        · split at stored
          · cases stored
          · rename_i key
            rw [not_or] at key
            have fits : (ngxHttpSnoopingUrl2localKey (47 :: (server ++ res)) rule).length < httpSpLfileLenMax :=
              Nat.lt_of_le_of_ne (Nat.le_of_not_lt key.1) room.2.1
            cases slot with
            | fresh => exact (List.mem_append.mp stored).elim (keyBufInside fits w) (held w)
            | found | full => cases stored

theorem lengthsAgree (lengths : httpSpUrlLenMax - 1 < name.length ∨ Admissible name rule) :
    (urlidGetFits name rule ↔ urlHandleFits name rule) ∧ (urlHandleFits name rule ↔ youkuUrlAddFits name rule) ∧
    ∀ server res,server ++ res = name → (youkuUrlAddFits name rule ↔ urlRecordFits server res rule) := by
  refine ⟨Iff.rfl,?_,?_⟩
  · unfold urlHandleFits youkuUrlAddFits
    rcases lengths with long | ⟨short,other,_⟩ <;> omega
  · rintro server res rfl
    unfold youkuUrlAddFits urlRecordFits
    rw [List.length_append]

/-- The four entries keep to their buffers and agree on a URL exactly when no rule takes it, all refuse its length, or its
length and that of its key are below the limits on which they differ. -/
theorem admissionSafe (name : Bytes) : AdmissionSafe name ↔ ∀ rule,ngxHttpUrlRuleGet name = some rule →
    httpSpUrlLenMax - 1 < name.length ∨ Admissible name rule := by
  constructor
  · intro safe rule accepted
    by_cases long : httpSpUrlLenMax - 1 < name.length
    · exact .inl long
    · have writes : ngxHttpSpUrlidGetWrites name = urlKeyWrites name ++ ngxHttpSnoopingUrl2localKeyWrites (47 :: name) rule := by
        rw [ngxHttpSpUrlidGetWrites,if_neg long,accepted]
      have urlEnd : (⟨.urlTmpBuf,name.length + 1,1⟩ : Write).inside httpSpUrlLenMax :=
        safe.urlidGet _ (by rw [writes]; simp [urlKeyWrites])
      have keyEnd : (⟨.urlTmpBuf,keyLength name rule,1⟩ : Write).inside httpSpUrlLenMax :=
        safe.urlidGet _ (by rw [writes]; simp [ngxHttpSnoopingUrl2localKeyWrites,keyLength])
      have urlFits : (name.length : Int) + 1 + (1 : Nat) ≤ httpSpUrlLenMax := urlEnd.2
      have keyFits : (keyLength name rule : Int) + (1 : Nat) ≤ httpSpUrlLenMax := keyEnd.2
      have same := (safe.agree rule accepted).2.1
      refine .inr ⟨by omega,fun edge => ?_,by omega⟩
      have passes : youkuUrlAddFits name rule := ⟨by omega,by omega⟩
      exact (same.mpr passes).2 edge.ge
  · exact fun lengths => {
      urlidGet := urlidGetInside lengths
      urlHandle := urlHandleInside lengths
      youkuUrlAdd := youkuUrlAddInside lengths
      urlRecord server res slot joined := urlRecordInside (joined ▸ lengths) slot
      agree rule accepted := lengthsAgree (lengths rule accepted) }

def edgeRes : Bytes := 47 :: List.replicate 250 97 ++ ascii ".m3u8"
def m3u8Rule : Rule :=
  { cacheFlg := { parsePage with postFile := true,redirectPara := true },keyFlg := httpCacheKeyFile,
    postFile := ascii ".m3u8" }

theorem edgeOverrun : ngxHttpUrlRuleGet (ascii "h" ++ edgeRes) = some m3u8Rule ∧
    keyLength (ascii "h" ++ edgeRes) m3u8Rule = 256 ∧ ¬urlHandleFits (ascii "h" ++ edgeRes) m3u8Rule ∧
    urlRecordFits (ascii "h") edgeRes m3u8Rule ∧
    ⟨.keyBuf,256,1⟩ ∈ ngxHttpSnoopingUrlRecordWrites (ascii "h") edgeRes .fresh ∧
    ¬AdmissionSafe (ascii "h" ++ edgeRes) := by
  have rule : ngxHttpUrlRuleGet (ascii "h" ++ edgeRes) = some m3u8Rule := by decide +kernel
  have size : keyLength (ascii "h" ++ edgeRes) m3u8Rule = 256 := by decide +kernel
  have overrun : ⟨.keyBuf,256,1⟩ ∈ ngxHttpSnoopingUrlRecordWrites (ascii "h") edgeRes .fresh := by decide +kernel
  refine ⟨rule,size,fun fits => fits.2 size.ge,?_,overrun,fun safe => ?_⟩
  · exact ⟨by decide +kernel,by rw [size]; decide⟩
  · exact absurd (safe.urlRecord _ _ .fresh rfl _ overrun).2 (by decide)

end admission

end MipsElfExec.Snooping

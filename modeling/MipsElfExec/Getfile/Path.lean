import MipsElfExec.Getfile.UrlId

/-! The path of a stored file. Its buffer is sized from the root and the URI of the request; for a
getfile request the name copied behind the root comes from the URL table. -/
namespace MipsElfExec.Getfile
open CString Snooping

inductive Root where
  | plain (root : Bytes)
  | script (root : Option Bytes)
  deriving DecidableEq, Repr

structure Mapping where
  root : Root
  aliasLen : Nat
  regex : Bool
  uri : Bytes
  args : Bytes
  getfile : Bool
  validLocation : Bool
  addUriToAlias : Bool
  reserved : Nat
  memory : Bool
  inside : regex = false → validLocation = true → aliasLen ≤ uri.length
  compiled : regex = true → aliasLen ≠ 0 → ∃ run, root = .script run

structure Path where
  len : Nat
  data : Bytes
  deriving DecidableEq, Repr

def ngxCpystrn (src : Bytes) (n : Nat) : Bytes := if n = 0 then [] else (cstr src).take (n - 1) ++ [0]

def noRule : Rule := { cacheFlg := {},keyFlg := 0 }

def ngxHttpSpId2fpath (urls : UrlId → UrlEntry) (id : Nat) : Option Bytes :=
  if small : id < httpSpUrlMax then
    let e := urls ⟨id,small⟩
    if e.urlFlags.res then some (ngxHttpUrl2localFile (cstr e.urlBuf) (e.pcacheRule.getD noRule)) else none
  else none

def Mapping.captures (m : Mapping) : Bool := m.aliasLen != 0 && m.regex
def Mapping.rootOnly (m : Mapping) : Bool := m.captures && !m.addUriToAlias
def Mapping.dropped (m : Mapping) : Nat := if m.captures then 0 else m.aliasLen

def storeName (urls : UrlId → UrlEntry) (m : Mapping) : Option Bytes :=
  if m.getfile then (mapUriUrlId m.args).bind (ngxHttpSpId2fpath urls) else none

def pathTail (urls : UrlId → UrlEntry) (m : Mapping) : Bytes :=
  match storeName urls m with
  | some name => 47 :: ngxCpystrn name (name.length + 1)
  | none => ngxCpystrn (m.uri.drop m.dropped) (m.uri.length - m.dropped + 1)

-- The bytes written from path->data on, beside the length it was given.
def ngxHttpMapUriToPath (urls : UrlId → UrlEntry) (m : Mapping) : Option Path :=
  if m.aliasLen ≠ 0 ∧ m.validLocation = false ∨ m.memory = false then none
  else match m.root with
  | .plain root => some ⟨root.length + m.reserved + (m.uri.length - m.aliasLen) + 1,root ++ pathTail urls m⟩
  | .script none => none
  | .script (some root) =>
    let room := if m.captures then if m.addUriToAlias then m.uri.length + 1 else 1 else m.uri.length - m.aliasLen + 1
    some ⟨root.length + (m.reserved + room),if m.rootOnly then root ++ [0] else root ++ pathTail urls m⟩

theorem cpystrnLength (src : Bytes) (n : Nat) : (ngxCpystrn src (n + 1)).length = min n (cstr src).length + 1 := by
  simp [ngxCpystrn]

theorem cstrShort (s : Bytes) : (cstr s).length ≤ s.length := (cstrPrefix s).length_le

theorem tailStored {urls m name} (stored : storeName urls m = some name) :
    (pathTail urls m).length = (cstr name).length + 2 := by
  have short := cstrShort name
  simp only [pathTail,stored,List.length_cons,cpystrnLength]
  omega

theorem tailDefault {urls m} (plain : storeName urls m = none) :
    (pathTail urls m).length ≤ m.uri.length - m.dropped + 1 := by
  simp only [pathTail,plain,cpystrnLength]
  omega

theorem pathShape {urls m path} (mapped : ngxHttpMapUriToPath urls m = some path) :
    ∃ root : Bytes, (m.rootOnly = true ∧ path.len = root.length + m.reserved + 1 ∧ path.data = root ++ [0]) ∨
      (m.rootOnly = false ∧ path.len = root.length + m.reserved + (m.uri.length - m.dropped) + 1 ∧
        path.data = root ++ pathTail urls m) := by
  unfold ngxHttpMapUriToPath at mapped
  split at mapped
  · cases mapped
  · cases shape : m.root with
    | plain root =>
      rw [shape] at mapped
      cases Option.some.inj mapped
      have loose : m.captures = false := by
        cases taken : m.captures with
        | false => rfl
        | true =>
          simp only [Mapping.captures,Bool.and_eq_true,bne_iff_ne] at taken
          obtain ⟨run,scripted⟩ := m.compiled taken.2 taken.1
          rw [shape] at scripted
          cases scripted
      exact ⟨root,.inr ⟨by simp [Mapping.rootOnly,loose],by simp [Mapping.dropped,loose],rfl⟩⟩
    | script run =>
      rw [shape] at mapped
      cases run with
      | none => cases mapped
      | some root =>
        cases Option.some.inj mapped
        refine ⟨root,?_⟩
        cases taken : m.captures with
        | false =>
          exact .inr ⟨by simp [Mapping.rootOnly,taken],by simp [Mapping.dropped,taken]; omega,
            by simp [Mapping.rootOnly,taken]⟩
        | true =>
          cases more : m.addUriToAlias with
          | false => exact .inl ⟨by simp [Mapping.rootOnly,taken,more],by simp; omega,by simp [Mapping.rootOnly,taken,more]⟩
          | true =>
            exact .inr ⟨by simp [Mapping.rootOnly,more],by simp [Mapping.dropped,taken]; omega,
              by simp [Mapping.rootOnly,more]⟩

theorem uriPathFits {urls m path} (mapped : ngxHttpMapUriToPath urls m = some path) (plain : storeName urls m = none) :
    path.data.length ≤ path.len := by
  have tail := tailDefault plain
  obtain ⟨root,⟨_,len,data⟩ | ⟨_,len,data⟩⟩ := pathShape mapped
  · simp only [len,data,List.length_append,List.length_singleton]
    omega
  · simp only [len,data,List.length_append]
    omega

theorem storePathFitsExactly (urls : UrlId → UrlEntry) (m : Mapping) (id : UrlId) (path : Path)
    (getfile : m.getfile = true) (named : mapUriUrlId m.args = some id.val)
    (mapped : ngxHttpMapUriToPath urls m = some path) :
    path.data.length ≤ path.len ↔
      (m.rootOnly = true ∨ (urls id).urlFlags.res = false ∨
        (cstr (ngxHttpUrl2localFile (cstr (urls id).urlBuf) ((urls id).pcacheRule.getD noRule))).length + 1 ≤
          m.reserved + (m.uri.length - m.dropped)) := by
  have found : storeName urls m = if (urls id).urlFlags.res then
      some (ngxHttpUrl2localFile (cstr (urls id).urlBuf) ((urls id).pcacheRule.getD noRule)) else none := by
    simp only [storeName,if_pos getfile,named,Option.bind_some,ngxHttpSpId2fpath,dif_pos id.isLt]
  cases used : (urls id).urlFlags.res with
  | false =>
    rw [used] at found
    exact iff_of_true (uriPathFits mapped found) (.inr (.inl rfl))
  | true =>
    rw [used] at found
    have tail := tailStored found
    obtain ⟨root,⟨only,len,data⟩ | ⟨more,len,data⟩⟩ := pathShape mapped
    · simp only [len,data,only,List.length_append,List.length_singleton,true_or,iff_true]
      omega
    · simp only [len,data,more,List.length_append,tail,Bool.false_eq_true,Bool.true_eq_false,false_or]
      omega

def storedMovie : Ctx := ((ngxHttpSpUrlHandle (ascii "a.b/x.mp4") .add).exec (ngxHttpSnoopingInit 0)).2

def movieRequest (uri : Bytes) : Mapping :=
  { root := .plain (ascii "/store"),aliasLen := 0,regex := false,uri := uri
    args := ascii "a.b/x.mp4?urlID=32767 HTTP/1.1",getfile := true,validLocation := true,addUriToAlias := false
    reserved := 0,memory := true,inside := fun _ _ => Nat.zero_le _,compiled := Bool.noConfusion }

theorem storePathFitsLong : (⟨18,ascii "/store/a_b/x.mp4" ++ [0]⟩ : Path).data.length ≤ 18 ↔
    ((movieRequest (ascii "/getfile/as")).rootOnly = true ∨ (storedMovie.urls 32767).urlFlags.res = false ∨
      (cstr (ngxHttpUrl2localFile (cstr (storedMovie.urls 32767).urlBuf)
        ((storedMovie.urls 32767).pcacheRule.getD noRule))).length + 1 ≤
        (movieRequest (ascii "/getfile/as")).reserved +
          ((movieRequest (ascii "/getfile/as")).uri.length - (movieRequest (ascii "/getfile/as")).dropped)) :=
  storePathFitsExactly storedMovie.urls (movieRequest (ascii "/getfile/as")) 32767 ⟨18,ascii "/store/a_b/x.mp4" ++ [0]⟩
    rfl (by decide) (by decide)

theorem storePathOverruns : ngxHttpMapUriToPath storedMovie.urls (movieRequest (ascii "/getfile")) =
    some ⟨15,ascii "/store/a_b/x.mp4" ++ [0]⟩ ∧ 15 < (ascii "/store/a_b/x.mp4" ++ [0]).length := by
  decide

end MipsElfExec.Getfile

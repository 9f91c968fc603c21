import MipsElfExec.Snooping.Leftover
import MipsElfExec.Snooping.Lookup

/-! The file suffix of a content type. The tree of the types is ordered by the bytes of their name structures, which
begin with the length of the name. -/
namespace MipsElfExec.Snooping
open CString Avl

structure MimeType where
  mimeType : Bytes
  postFix : Bytes
  deriving DecidableEq, Repr

def httpMimeNull : MimeType := ⟨[],[]⟩

def httpMimeType : List MimeType :=
  [⟨ascii "text/html",ascii ".html"⟩,
    ⟨ascii "text/html",ascii ".htm"⟩,
    ⟨ascii "text/html",ascii ".shtml"⟩,
    ⟨ascii "text/css",ascii ".css"⟩,
    ⟨ascii "text/xml",ascii ".xml"⟩,
    ⟨ascii "image/gif",ascii ".gif"⟩,
    ⟨ascii "image/jpeg",ascii ".jpeg"⟩,
    ⟨ascii "image/jpeg",ascii ".jpg"⟩,
    ⟨ascii "application/javascript",ascii ".js"⟩,
    ⟨ascii "application/atom+xml",ascii ".atom"⟩,
    ⟨ascii "application/rss+xml",ascii ".rss"⟩,
    ⟨ascii "text/mathml",ascii ".mml"⟩,
    ⟨ascii "text/plain",ascii ".txt"⟩,
    ⟨ascii "text/vnd.sun.j2me.app-descriptor",ascii ".jad"⟩,
    ⟨ascii "text/vnd.wap.wml",ascii ".wml"⟩,
    ⟨ascii "text/x-component",ascii ".htc"⟩,
    ⟨ascii "image/png",ascii ".png"⟩,
    ⟨ascii "image/tiff",ascii ".tif"⟩,
    ⟨ascii "image/tiff",ascii ".tiff"⟩,
    ⟨ascii "image/vnd.wap.wbmp",ascii ".wbmp"⟩,
    ⟨ascii "image/x-icon",ascii ".ico"⟩,
    ⟨ascii "image/x-jng",ascii ".jng"⟩,
    ⟨ascii "image/x-ms-bmp",ascii ".bmp"⟩,
    ⟨ascii "image/svg+xml",ascii ".svg"⟩,
    ⟨ascii "image/svg+xml",ascii ".svgz"⟩,
    ⟨ascii "image/webp",ascii ".webp"⟩,
    ⟨ascii "application/font-woff",ascii ".woff"⟩,
    ⟨ascii "application/java-archive",ascii ".jar"⟩,
    ⟨ascii "application/java-archive",ascii ".war"⟩,
    ⟨ascii "application/java-archive",ascii ".ear"⟩,
    ⟨ascii "application/json",ascii ".json"⟩,
    ⟨ascii "application/mac-binhex40",ascii ".hqx"⟩,
    ⟨ascii "application/msword",ascii ".doc"⟩,
    ⟨ascii "application/pdf",ascii ".pdf"⟩,
    ⟨ascii "application/postscript",ascii ".ps"⟩,
    ⟨ascii "application/postscript",ascii ".eps"⟩,
    ⟨ascii "application/postscript",ascii ".ai"⟩,
    ⟨ascii "application/rtf",ascii ".rtf"⟩,
    ⟨ascii "application/vnd.ms-excel",ascii ".xls"⟩,
    ⟨ascii "application/vnd.ms-fontobject",ascii ".eot"⟩,
    ⟨ascii "application/vnd.ms-powerpoint",ascii ".ppt"⟩,
    ⟨ascii "application/vnd.wap.wmlc",ascii ".wmlc"⟩,
    ⟨ascii "application/vnd.google-earth.kml+xml",ascii ".kml"⟩,
    ⟨ascii "application/vnd.google-earth.kmz",ascii ".kmz"⟩,
    ⟨ascii "application/x-7z-compressed",ascii ".7z"⟩,
    ⟨ascii "application/x-cocoa",ascii ".cco"⟩,
    ⟨ascii "application/x-java-archive-diff",ascii ".jardiff"⟩,
    ⟨ascii "application/x-java-jnlp-file",ascii ".jnlp"⟩,
    ⟨ascii "application/x-makeself",ascii ".run"⟩,
    ⟨ascii "application/x-perl",ascii ".pl"⟩,
    ⟨ascii "application/x-perl",ascii ".pm"⟩,
    ⟨ascii "application/x-pilot",ascii ".prc"⟩,
    ⟨ascii "application/x-pilot",ascii ".pdb"⟩,
    ⟨ascii "application/x-rar-compressed",ascii ".rar"⟩,
    ⟨ascii "application/x-redhat-package-manager",ascii ".rpm"⟩,
    ⟨ascii "application/x-sea",ascii ".sea"⟩,
    ⟨ascii "application/x-shockwave-flash",ascii ".swf"⟩,
    ⟨ascii "application/x-stuffit",ascii ".sit"⟩,
    ⟨ascii "application/x-tcl",ascii ".tcl"⟩,
    ⟨ascii "application/x-tcl",ascii ".tk"⟩,
    ⟨ascii "application/x-x509-ca-cert",ascii ".der"⟩,
    ⟨ascii "application/x-x509-ca-cert",ascii ".pem"⟩,
    ⟨ascii "application/x-x509-ca-cert",ascii ".crt"⟩,
    ⟨ascii "application/x-xpinstall",ascii ".xpi"⟩,
    ⟨ascii "application/xhtml+xml",ascii ".xhtml"⟩,
    ⟨ascii "application/zip",ascii ".zip"⟩,
    ⟨ascii "application/octet-stream",ascii ".bin"⟩,
    ⟨ascii "application/octet-stream",ascii ".dll"⟩,
    ⟨ascii "application/octet-stream",ascii ".exe"⟩,
    ⟨ascii "application/octet-stream",ascii ".deb"⟩,
    ⟨ascii "application/octet-stream",ascii ".dmg"⟩,
    ⟨ascii "application/octet-stream",ascii ".iso"⟩,
    ⟨ascii "application/octet-stream",ascii ".img"⟩,
    ⟨ascii "application/octet-stream",ascii ".msi"⟩,
    ⟨ascii "application/octet-stream",ascii ".msp"⟩,
    ⟨ascii "application/octet-stream",ascii ".msm"⟩,
    ⟨ascii "application/vnd.openxmlformats-officedocument.wordprocessingml.document",ascii ".docx"⟩,
    ⟨ascii "application/vnd.openxmlformats-officedocument.spreadsheetml.sheet",ascii ".xlsx"⟩,
    ⟨ascii "application/vnd.openxmlformats-officedocument.presentationml.presentation",ascii ".pptx"⟩,
    ⟨ascii "audio/midi",ascii ".mid"⟩,
    ⟨ascii "audio/midi",ascii ".midi"⟩,
    ⟨ascii "audio/midi",ascii ".kar"⟩,
    ⟨ascii "audio/mpeg",ascii ".mp3"⟩,
    ⟨ascii "audio/ogg",ascii ".ogg"⟩,
    ⟨ascii "audio/x-m4a",ascii "m4a"⟩,
    ⟨ascii "audio/x-realaudio",ascii ".ra"⟩,
    ⟨ascii "video/3gpp",ascii ".3gpp"⟩,
    ⟨ascii "video/3gpp",ascii ".3gp"⟩,
    ⟨ascii "video/mp2t",ascii ".mp2"⟩,
    ⟨ascii "video/mpeg",ascii ".mp2"⟩,
    ⟨ascii "video/mpeg",ascii ".mp3"⟩,
    ⟨ascii "video/mp4",ascii ".mp4"⟩,
    ⟨ascii "video/mpeg",ascii ".mpeg"⟩,
    ⟨ascii "video/mpeg",ascii ".mpg"⟩,
    ⟨ascii "video/quicktime",ascii ".mov"⟩,
    ⟨ascii "video/webm",ascii ".webm"⟩,
    ⟨ascii "video/x-flv",ascii ".flv"⟩,
    ⟨ascii "video/x-m4v",ascii ".m4v"⟩,
    ⟨ascii "video/x-mng",ascii ".mng"⟩,
    ⟨ascii "video/x-ms-asf",ascii ".asx"⟩,
    ⟨ascii "video/x-ms-asf",ascii ".asf"⟩,
    ⟨ascii "video/x-ms-wmv",ascii ".wmv"⟩,
    ⟨ascii "video/x-msvideo",ascii ".avi"⟩]

inductive ByteOrder where
  | big | little
  deriving DecidableEq, Repr

def sizeBytes (n : Nat) : ByteOrder → Bytes
  | .little => [UInt8.ofNat n,UInt8.ofNat (n / 256),UInt8.ofNat (n / 65536),UInt8.ofNat (n / 16777216)]
  | .big => [UInt8.ofNat (n / 16777216),UInt8.ofNat (n / 65536),UInt8.ofNat (n / 256),UInt8.ofNat n]

-- A name is a length and a pointer; the pointer and what follows it are any bytes.
structure Memory where
  order : ByteOrder
  behindNode : MimeType → Bytes
  behindKey : Bytes

def Memory.node (M : Memory) (m : MimeType) : Bytes := sizeBytes m.mimeType.length M.order ++ M.behindNode m

def Memory.key (M : Memory) (len : Nat) : Bytes := sizeBytes len M.order ++ M.behindKey

-- strcmp is given the structures, not their texts.
def httpSnoopingMimeCmp (M : Memory) (node : MimeType) (key : Bytes) : Ordering := strcmp (cstr (M.node node)) (cstr key)

def httpMimeTree (M : Memory) : Avl.Tree MimeType :=
  httpMimeType.foldl (fun tree pmime => avlInsert (httpSnoopingMimeCmp M) pmime (M.node pmime) tree) .nil

def ngxHttpUrlMimeType (M : Memory) (buf : Bytes) (data len : Nat) : MimeType × Bytes :=
  let patched := buf.set (data + len) 0
  ((avlSearch (httpSnoopingMimeCmp M) (httpMimeTree M) (M.key len)).getD httpMimeNull,
    patched.set (data + len) (buf.getD (data + len) 0))

def Memory.mimeOf (M : Memory) (type : Bytes) : Bytes := (ngxHttpUrlMimeType M type 0 type.length).1.postFix

def contentTypeAt (text : Bytes) : Option Nat := (strstr text httpContentType).map (· + httpContentType.length)

def contentTypeValue (text : Bytes) : Option Bytes :=
  (contentTypeAt text).bind fun n => (strstr (text.drop n) crlf).map (text.drop n).take

section lookup
variable {M : Memory} {len : Nat}

theorem mimeFind (M : Memory) (key : Bytes) : avlSearch (httpSnoopingMimeCmp M) (httpMimeTree M) key =
    httpMimeType.find? fun m => cstr (M.node m) == cstr key := by
  have found : avlSearch (httpSnoopingMimeCmp M) (httpMimeTree M) key =
      httpMimeType.find? fun m => cstrOrder (M.node m) key == .eq := @builtFind _ _ M.node cstrOrder _ httpMimeType key
  have same (m : MimeType) : (cstrOrder (M.node m) key == .eq) = (cstr (M.node m) == cstr key) := by
    rw [Bool.eq_iff_iff,beq_iff_eq,beq_iff_eq]
    exact strcmpEq
  rw [found]
  simp only [same]

attribute [irreducible] httpMimeTree

theorem tableSizes : ∀ m ∈ httpMimeType,0 < m.mimeType.length ∧ m.mimeType.length < 256 := by decide +kernel

theorem bigEmpty (small : len < 16777216) (behind : Bytes) : cstr (sizeBytes len .big ++ behind) = [] := by
  have none_ : len / 16777216 = 0 := Nat.div_eq_of_lt small
  simp only [sizeBytes,none_,List.cons_append]
  rfl

theorem littleSize (some_ : 0 < len) (small : len < 256) (behind : Bytes) :
    cstr (sizeBytes len .little ++ behind) = [UInt8.ofNat len] := by
  have first : UInt8.ofNat len ≠ 0 := fun zero => by
    have low := congrArg UInt8.toNat zero
    simp only [UInt8.toNat_ofNat',UInt8.toNat_zero] at low
    omega
  have second : len / 256 = 0 := Nat.div_eq_of_lt small
  simp only [sizeBytes,second,List.cons_append,cstr,if_neg first]
  rfl

theorem littleSame {n : Nat} (some_ : 0 < n) (small : n < 256) (room : len < 65536) (behind behind' : Bytes) :
    cstr (sizeBytes n .little ++ behind) = cstr (sizeBytes len .little ++ behind') ↔ n = len := by
  rw [littleSize some_ small]
  constructor
  · intro same
    rcases Nat.lt_or_ge len 256 with short | long
    · rcases Nat.eq_zero_or_pos len with rfl | pos
      · cases same
      · rw [littleSize pos short] at same
        have low := congrArg UInt8.toNat (List.cons.inj same).1
        simp only [UInt8.toNat_ofNat'] at low
        omega
    · have second : UInt8.ofNat (len / 256) ≠ 0 := fun zero => by
        have high := congrArg UInt8.toNat zero
        simp only [UInt8.toNat_ofNat',UInt8.toNat_zero] at high
        omega
      simp only [sizeBytes,List.cons_append,cstr,if_neg second] at same
      split at same
      · cases same
      · cases (List.cons.inj same).2
  · rintro rfl
    exact (littleSize some_ small behind').symm

theorem bigLookup (big : M.order = .big) (small : len < 16777216) :
    avlSearch (httpSnoopingMimeCmp M) (httpMimeTree M) (M.key len) = some ⟨ascii "text/html",ascii ".html"⟩ := by
  rw [mimeFind,Memory.key,big,bigEmpty small]
  unfold httpMimeType
  rw [List.find?_cons,Memory.node,big,bigEmpty (by decide)]
  rfl

theorem littleLookup (little : M.order = .little) (room : len < 65536) :
    avlSearch (httpSnoopingMimeCmp M) (httpMimeTree M) (M.key len) =
      httpMimeType.find? fun m => m.mimeType.length == len := by
  rw [mimeFind]
  refine List.find?_congr fun m mem => ?_
  obtain ⟨some_,small⟩ := tableSizes m mem
  rw [Bool.eq_iff_iff,beq_iff_eq,beq_iff_eq,Memory.node,Memory.key,little]
  exact littleSame some_ small room _ _

end lookup

section value
variable {text v : Bytes}

theorem typeOfValue (text : Bytes) : responseContentType text = (contentTypeValue text).map contentTypeCut := by
  unfold responseContentType contentTypeValue contentTypeAt
  cases strstr text httpContentType with
  | none => rfl
  | some n =>
    simp only [Option.map_some,Option.bind_some,Option.map_map]
    rfl

theorem valueLength (value : contentTypeValue text = some v) : v.length ≤ text.length := by
  obtain ⟨n,_,rest⟩ := Option.bind_eq_some_iff.mp value
  obtain ⟨e,_,same⟩ := Option.map_eq_some_iff.mp rest
  rw [← same,List.length_take,List.length_drop]
  omega

theorem cutLength (v : Bytes) : (contentTypeCut v).length ≤ v.length := by
  unfold contentTypeCut
  split
  · rw [List.length_take]
    exact Nat.min_le_right _ _
  · exact Nat.le_refl _

def mimePart (v : Bytes) : Bytes := v.takeWhile (· ≠ 59)

theorem partWhole (none_ : (59 : Byte) ∉ v) : mimePart v = v ∧ contentTypeCut v = v := by
  refine ⟨List.takeWhile_eq_self_iff.mpr (untilAll none_),?_⟩
  have absent : (v.drop 1).findIdx? (· == 59) = none := by
    rw [List.findIdx?_eq_none_iff]
    intro b mem
    exact beq_eq_false_iff_ne.mpr fun same => none_ (same ▸ List.mem_of_mem_drop mem)
  unfold contentTypeCut
  rw [absent]

theorem partCut (some_ : (59 : Byte) ∈ v) : mimePart v = [] ∨ (contentTypeCut v).length + 1 = (mimePart v).length := by
  cases v with
  | nil => cases some_
  | cons b v =>
    rcases Decidable.em (b = 59) with rfl | other
    · exact .inl rfl
    · have inside : (59 : Byte) ∈ v := (List.mem_cons.mp some_).resolve_left (Ne.symm other)
      have index : v.findIdx? (· == 59) = some (v.takeWhile (· ≠ 59)).length := by
        clear some_ other
        induction v with
        | nil => cases inside
        | cons c v ih =>
          rcases Decidable.em (c = 59) with rfl | later
          · rfl
          · have rest := ih ((List.mem_cons.mp inside).resolve_left (Ne.symm later))
            simp [List.findIdx?_cons,later,rest]
      have short : (v.takeWhile (· ≠ 59)).length ≤ v.length := (List.takeWhile_prefix _).length_le
      refine .inr ?_
      unfold contentTypeCut mimePart
      rw [List.drop_one,List.tail_cons,index,List.takeWhile_cons,if_pos (decide_eq_true other)]
      simp only [List.length_take,List.length_cons]
      omega

end value

section stored
variable {M : Memory} {v : Bytes} {m : MimeType}

def MimeRight (v : Bytes) (m : MimeType) : Prop :=
  if httpMimeType.any (·.mimeType == mimePart v) then m ∈ httpMimeType ∧ m.mimeType = mimePart v else m = httpMimeNull
instance (v : Bytes) (m : MimeType) : Decidable (MimeRight v m) := by unfold MimeRight; infer_instance

def mimeLeads (v : Bytes) : Bool := (httpMimeType.find? (·.mimeType.length == v.length)).any (·.mimeType == v)

def mimeSized (len : Nat) : Bool := httpMimeType.any (·.mimeType.length == len)

def MimeFine (v : Bytes) : ByteOrder → Prop
  | .big => mimePart v = ascii "text/html"
  | .little =>
    if (59 : Byte) ∈ v then
      httpMimeType.any (·.mimeType == mimePart v) = false ∧ mimeSized (contentTypeCut v).length = false
    else mimeLeads v = true ∨ mimeSized v.length = false
instance (v : Bytes) (order : ByteOrder) : Decidable (MimeFine v order) := by unfold MimeFine; cases order <;> infer_instance

theorem nullNamed : ∀ m ∈ httpMimeType,m ≠ httpMimeNull := by
  rintro m mem rfl
  exact absurd (tableSizes _ mem).1 (by decide)

theorem rightNamed (mem : m ∈ httpMimeType) : MimeRight v m ↔ m.mimeType = mimePart v := by
  unfold MimeRight
  constructor
  · intro right
    split at right
    · exact right.2
    · exact absurd right (nullNamed m mem)
  · intro named
    have some_ : httpMimeType.any (fun m => m.mimeType == mimePart v) = true :=
      List.any_eq_true.mpr ⟨m,mem,by rw [named,beq_self_eq_true]⟩
    rw [if_pos some_]
    exact ⟨mem,named⟩

theorem rightNull : MimeRight v httpMimeNull ↔ httpMimeType.any (·.mimeType == mimePart v) = false := by
  unfold MimeRight
  constructor
  · intro right
    split at right
    · exact absurd rfl (nullNamed _ right.1)
    · rename_i none_
      exact Bool.eq_false_of_not_eq_true none_
  · intro none_
    rw [none_,if_neg Bool.false_ne_true]

theorem sizedNone {len : Nat} : (httpMimeType.find? fun m => m.mimeType.length == len) = none ↔ mimeSized len = false := by
  unfold mimeSized
  rw [List.find?_eq_none,List.any_eq_false]

theorem littleRight (v : Bytes) : MimeRight v ((httpMimeType.find? fun m =>
    m.mimeType.length == (contentTypeCut v).length).getD httpMimeNull) ↔ MimeFine v .little := by
  unfold MimeFine
  dsimp only
  cases found : httpMimeType.find? fun m => m.mimeType.length == (contentTypeCut v).length with
  | none =>
    rw [Option.getD_none,rightNull]
    have unsized := sizedNone.mp found
    split
    · exact ⟨fun none_ => ⟨none_,unsized⟩,And.left⟩
    · rename_i plain
      obtain ⟨whole,cut⟩ := partWhole plain
      rw [cut] at unsized
      refine iff_of_true ?_ (.inr unsized)
      rw [whole,List.any_eq_false]
      intro m mem same
      refine List.any_eq_false.mp unsized m mem ?_
      rw [beq_iff_eq.mp same,beq_self_eq_true]
  | some m =>
    have mem := List.mem_of_find?_eq_some found
    have same : (m.mimeType.length == (contentTypeCut v).length) = true :=
      List.find?_some (p := fun m : MimeType => m.mimeType.length == (contentTypeCut v).length) found
    have size := beq_iff_eq.mp same
    have sized : mimeSized (contentTypeCut v).length = true := List.any_eq_true.mpr ⟨m,mem,same⟩
    rw [Option.getD_some,rightNamed mem]
    split
    · rename_i cut
      refine iff_of_false (fun named => ?_) fun none_ => Bool.false_ne_true (none_.2.symm.trans sized)
      rcases partCut cut with empty | shorter
      · have some_ := (tableSizes m mem).1
        rw [named,empty] at some_
        cases some_
      · rw [← named] at shorter
        omega
    · rename_i plain
      obtain ⟨whole,cut⟩ := partWhole plain
      rw [cut] at found sized
      rw [whole,mimeLeads,found,sized]
      simp

theorem lookupRight (M : Memory) (buf : Bytes) (data : Nat) (room : v.length < 65536) :
    MimeRight v (ngxHttpUrlMimeType M buf data (contentTypeCut v).length).1 ↔ MimeFine v M.order := by
  have short := Nat.lt_of_le_of_lt (cutLength v) room
  unfold ngxHttpUrlMimeType
  dsimp only
  cases order : M.order with
  | big =>
    have html : (⟨ascii "text/html",ascii ".html"⟩ : MimeType) ∈ httpMimeType := List.mem_cons_self
    rw [bigLookup order (Nat.lt_trans short (by decide)),Option.getD_some,rightNamed html]
    exact eq_comm
  | little =>
    rw [littleLookup order short]
    exact littleRight v

theorem lookupLength (M : Memory) (buf : Bytes) (data len : Nat) : (ngxHttpUrlMimeType M buf data len).1 =
    (avlSearch (httpSnoopingMimeCmp M) (httpMimeTree M) (M.key len)).getD httpMimeNull := rfl

theorem bufferKept (M : Memory) (buf : Bytes) (data len : Nat) : (ngxHttpUrlMimeType M buf data len).2 = buf := by
  unfold ngxHttpUrlMimeType
  dsimp only
  rw [List.set_set]
  rcases Nat.lt_or_ge (data + len) buf.length with inside | outside
  · rw [List.getD_eq_getElem?_getD,List.getElem?_eq_getElem inside,Option.getD_some,List.set_getElem_self]
  · exact List.set_eq_of_length_le outside

variable {P : Platform} {con : Con} {ctx : Ctx} {id : UrlId} {token : Nat}

def Con.mimeLookup (con : Con) (M : Memory) (v : Bytes) : MimeType × Bytes :=
  ngxHttpUrlMimeType M (con.resBuf ++ [0]) ((contentTypeAt (cstr con.resBuf)).getD 0) (contentTypeCut v).length

structure MimeStored (M : Memory) (con : Con) (v : Bytes) (e : UrlEntry) : Prop where
  suffix : e.mimePostfix = (con.mimeLookup M v).1.postFix
  right : MimeRight v (con.mimeLookup M v).1
  buffer : (con.mimeLookup M v).2 = con.resBuf ++ [0]

/-- The suffix of a response is that of its content type exactly for the values above. -/
theorem mimeStoredExactly (M : Memory) (P : Platform) (ctx : Ctx) (id : UrlId) (token : Nat)
    (room : con.resBuf.length < httpSpResHeadLenMax) (ok : responseStatusOk (cstr con.resBuf) = true)
    (value : contentTypeValue (cstr con.resBuf) = some v)
    (flag : con.postFix = true) :
    MimeStored M con v ((responseHeader { P with mimeOf := M.mimeOf } con ctx id token).ctx.urls id) ↔
      MimeFine v M.order := by
  have short : v.length < 65536 := by
    have whole := valueLength value
    have cut := (cstrPrefix con.resBuf).length_le
    unfold httpSpResHeadLenMax at room
    omega
  have right := lookupRight M (con.resBuf ++ [0]) ((contentTypeAt (cstr con.resBuf)).getD 0) short
  have known : responseType (cstr con.resBuf) = some (contentTypeCut v) := by
    unfold responseType
    rw [ok,if_pos rfl,typeOfValue,value]
    rfl
  refine ⟨fun stored => right.mp stored.right,fun fine => ⟨?_,right.mpr fine,bufferKept M _ _ _⟩⟩
  rw [headerTyped known,typedMime]
  unfold typeMarked
  rw [flag,if_pos rfl,modifySelf]
  unfold Con.mimeLookup
  rw [lookupLength]
  exact congrArg MimeType.postFix (lookupLength M (contentTypeCut v) 0 _)

def typedCon (value : String) : Con :=
  { resState := .requestHeader
    postFix := true
    resBuf := ascii "HTTP/1.1 200 OK" ++ crlf ++ ascii "Content-Type: " ++ ascii value ++ crlf ++ crlf }

def plainMemory (order : ByteOrder) : Memory := ⟨order,fun _ => [],[]⟩

def typedEntry (order : ByteOrder) (value : String) : UrlEntry :=
  (responseHeader ⟨ngxHttpEfGetn,100,fun _ => [],(plainMemory order).mimeOf⟩ (typedCon value) (ngxHttpSnoopingInit 0) 7 1).ctx.urls 7

theorem mimeStoredHtml :
    MimeStored (plainMemory .big) (typedCon "text/html") (ascii "text/html") (typedEntry .big "text/html") :=
  (mimeStoredExactly (plainMemory .big) ⟨ngxHttpEfGetn,100,fun _ => [],fun _ => []⟩ (ngxHttpSnoopingInit 0) 7 1
    (by decide) (by decide) (by decide) rfl).mpr (by decide)

theorem pngPage (order : ByteOrder) :
    contentTypeValue (cstr (typedCon "image/png").resBuf) = some (ascii "image/png") ∧
    ((typedCon "image/png").mimeLookup (plainMemory order) (ascii "image/png")).1 =
      ⟨ascii "text/html",ascii ".html"⟩ ∧
    ¬MimeStored (plainMemory order) (typedCon "image/png") (ascii "image/png") (typedEntry order "image/png") := by
  have html : (⟨ascii "text/html",ascii ".html"⟩ : MimeType) ∈ httpMimeType := List.mem_cons_self
  have found : ((typedCon "image/png").mimeLookup (plainMemory order) (ascii "image/png")).1 =
      ⟨ascii "text/html",ascii ".html"⟩ := by
    unfold Con.mimeLookup
    rw [lookupLength]
    cases order with
    | big =>
      rw [bigLookup rfl (by decide)]
      rfl
    | little =>
      rw [littleLookup rfl (by decide)]
      unfold httpMimeType
      rw [List.find?_cons_of_pos (by decide)]
      rfl
  refine ⟨by decide,found,fun stored => ?_⟩
  have right := stored.right
  rw [found,rightNamed html] at right
  exact absurd right (by decide)

theorem pngMistaken : contentTypeValue (cstr (typedCon "image/png").resBuf) = some (ascii "image/png") ∧
    ¬MimeStored (plainMemory .big) (typedCon "image/png") (ascii "image/png") (typedEntry .big "image/png") ∧
    ¬MimeStored (plainMemory .little) (typedCon "image/png") (ascii "image/png") (typedEntry .little "image/png") :=
  ⟨(pngPage .big).1,(pngPage .big).2.2,(pngPage .little).2.2⟩

end stored

end MipsElfExec.Snooping

import MipsElfExec.SnoopClient.HttpSession
import MipsElfExec.Snooping.Key

/-! The redirect that answers the request for a file URL: the real URL is taken from the rest of the response behind
its scheme. -/
namespace MipsElfExec.SnoopClient
open CString Access Snooping

def locationName : Bytes := ascii "Location:"

-- The URL is taken to stand at the end of the response, before the empty line; a negative index is outside.
def sohuParseFileUrlResponse (response : Bytes) : Checked (Int × Bytes) := do
  let realUrl := filled httpSpUrlLenMax []
  let some p ← strstrChecked response locationName | return (-1,realUrl)
  let some p ← strstrChecked p httpUrlPrefix | return (-1,realUrl)
  let p := cstr (p.drop httpUrlPrefix.length)
  if httpSpUrlLenMax ≤ p.length then return (-1,realUrl)
  else
    let realUrl := filled httpSpUrlLenMax p
    if p.length < 4 then .error .write
    else return (0,← poke realUrl (p.length - 4) 0)

def fieldByte (b : Byte) : Bool := b != 0 && b != 10 && b != 13

def isBlank (b : Byte) : Bool := b == 32 || b == 9

structure Field where
  name : Bytes
  lead : Bytes
  value : Bytes
  trail : Bytes
  bytes : ∀ b ∈ name ++ lead ++ value ++ trail,fieldByte b = true
  token : 58 ∉ name
  blanks : ∀ b ∈ lead ++ trail,isBlank b = true
  trimmed : value.head?.all (!isBlank ·) = true ∧ value.getLast?.all (!isBlank ·) = true

def Field.text (f : Field) : Bytes := f.name ++ 58 :: f.lead ++ f.value ++ f.trail ++ crlf

structure Header where
  status : Bytes
  line : ∀ b ∈ status,fieldByte b = true
  fields : List Field

def Header.text (h : Header) : Bytes := h.status ++ crlf ++ h.fields.flatMap Field.text ++ crlf

def Field.location (f : Field) : Option Bytes :=
  if f.name.map tolower = ascii "location" ∧ (f.value.take httpUrlPrefix.length).map tolower = httpUrlPrefix then
    some (f.value.drop httpUrlPrefix.length)
  else none

def Header.location (h : Header) : Option Bytes := h.fields.findSome? Field.location

def urlRead (h : Header) (r : Int × Bytes) : Prop :=
  match h.location with
  | some url => url.length < httpSpUrlLenMax → r.1 = 0 ∧ cstr r.2 = url
  | none => r.1 = -1

def redirectRest (text : Bytes) : Option Bytes :=
  (search locationName text).bind fun k => (search httpUrlPrefix (text.drop k)).map fun j =>
    text.drop (k + j + httpUrlPrefix.length)

def Header.UrlFits (h : Header) : Prop :=
  match h.location with
  | some url => url.length < httpSpUrlLenMax →
    redirectRest h.text = some (url ++ crlf ++ crlf) ∧ url.length + 4 < httpSpUrlLenMax
  | none => ∀ rest ∈ redirectRest h.text,httpSpUrlLenMax ≤ rest.length

section header
variable {text rest : Bytes}

theorem textEnds (h : Header) : ∃ front,h.text = front ++ (crlf ++ crlf) := by
  unfold Header.text
  rcases List.eq_nil_or_concat h.fields with none_ | ⟨fields,f,all⟩
  · exact ⟨h.status,by rw [none_,List.flatMap_nil,List.append_nil,List.append_assoc]⟩
  · refine ⟨h.status ++ crlf ++ fields.flatMap Field.text ++ (f.name ++ 58 :: f.lead ++ f.value ++ f.trail),?_⟩
    simp [all,Field.text]

theorem fieldClean (f : Field) : (0 : Byte) ∉ f.text := by
  have none_ (b : Byte) (mem : b ∈ f.name ++ f.lead ++ f.value ++ f.trail) : b ≠ 0 := by
    rintro rfl
    exact absurd (f.bytes 0 mem) (by decide)
  intro nul
  simp only [Field.text,List.mem_append,List.mem_cons] at nul
  rcases nul with ((((name | colon | lead) | value) | trail) | ends)
  · exact none_ 0 (by simp [name]) rfl
  · cases colon
  · exact none_ 0 (by simp [lead]) rfl
  · exact none_ 0 (by simp [value]) rfl
  · exact none_ 0 (by simp [trail]) rfl
  · exact absurd ends (by decide)

theorem headerClean (h : Header) : (0 : Byte) ∉ h.text := by
  intro nul
  simp only [Header.text,List.mem_append,List.mem_flatMap] at nul
  rcases nul with (((status | ends) | ⟨f,-,inside⟩) | ends)
  · exact absurd (h.line 0 status) (by decide)
  · exact absurd ends (by decide)
  · exact fieldClean f inside
  · exact absurd ends (by decide)

theorem beforeEnd {pat : Bytes} (some_ : pat ≠ []) (clean : 13 ∉ pat) (behind : search pat [10,13,10] = none) (front : Bytes) :
    search pat (front ++ (crlf ++ crlf)) = search pat front := by
  have split := searchSplit some_ clean front [10,13,10]
  rw [behind,Option.map_none,Option.or_none] at split
  exact split

theorem restEnds {front : Bytes} (found : redirectRest (front ++ (crlf ++ crlf)) = some rest) :
    ∃ url,rest = url ++ (crlf ++ crlf) := by
  obtain ⟨k,name,found⟩ := Option.bind_eq_some_iff.mp found
  obtain ⟨j,scheme,rfl⟩ := Option.map_eq_some_iff.mp found
  rw [beforeEnd (by decide) (by decide) (by decide)] at name
  have first := searchBound name
  rw [List.drop_append_of_le_length (by omega),beforeEnd (by decide) (by decide) (by decide)] at scheme
  have second := searchBound scheme
  rw [List.length_drop] at second
  exact ⟨front.drop (k + j + httpUrlPrefix.length),List.drop_append_of_le_length (by omega)⟩

theorem restSuffix (found : redirectRest text = some rest) : rest <:+ text := by
  obtain ⟨k,-,found⟩ := Option.bind_eq_some_iff.mp found
  obtain ⟨j,-,rfl⟩ := Option.map_eq_some_iff.mp found
  exact List.drop_suffix _ _

theorem parseFileUrl (clean : (0 : Byte) ∉ text) : sohuParseFileUrlResponse (text ++ [0]) =
    match redirectRest text with
    | none => .ok (-1,filled httpSpUrlLenMax [])
    | some rest =>
      if httpSpUrlLenMax ≤ rest.length then .ok (-1,filled httpSpUrlLenMax [])
      else if rest.length < 4 then .error .write
      else .ok (0,(filled httpSpUrlLenMax rest).set (rest.length - 4) 0) := by
  unfold sohuParseFileUrlResponse redirectRest
  rw [strstrText clean]
  cases name : search locationName text with
  | none => rfl
  | some k =>
    have behind : (0 : Byte) ∉ text.drop k := fun mem => clean (List.mem_of_mem_drop mem)
    simp only [Option.map_some,bind,Except.bind,Option.bind_some,strstrText behind]
    cases scheme : search httpUrlPrefix (text.drop k) with
    | none => rfl
    | some j =>
      have inside := searchBound scheme
      rw [List.length_drop] at inside
      have string : cstr (((text.drop k).drop j ++ [0]).drop httpUrlPrefix.length) = text.drop (k + j + httpUrlPrefix.length) := by
        rw [List.drop_append_of_le_length (by simp only [List.length_drop]; omega),List.drop_drop,List.drop_drop,← Nat.add_assoc]
        exact cstrTerminated _ [] fun mem => clean (List.mem_of_mem_drop mem)
      simp only [Option.map_some,string]
      split_ifs with long few
      · rfl
      · rfl
      · simp only [poke,filledSize (Nat.le_of_not_le long)]
        rw [if_pos (by omega)]
        rfl

theorem cutText {url : Bytes} (clean : (0 : Byte) ∉ url) :
    cstr ((filled httpSpUrlLenMax (url ++ (crlf ++ crlf))).set url.length 0) = url := by
  have cut : (filled httpSpUrlLenMax (url ++ (crlf ++ crlf))).set url.length 0 =
      url ++ 0 :: (10 :: crlf ++ List.replicate (httpSpUrlLenMax - (url ++ (crlf ++ crlf)).length) 0) := by
    simp [filled,crlf]
  rw [cut,cstrTerminated url _ clean]

end header

/-- The redirect is read as told exactly when its URL is the first one behind "Location:" and ends the header in time. -/
theorem fileUrlExactly (h : Header) : Meets (sohuParseFileUrlResponse (stringAt h.text)) (urlRead h) ↔ h.UrlFits := by
  obtain ⟨front,shape⟩ := textEnds h
  have clean := headerClean h
  unfold stringAt urlRead Header.UrlFits
  rw [cstrOfNoNul clean,parseFileUrl clean]
  cases found : redirectRest h.text with
  | none =>
    cases h.location with
    | none => simp
    | some url => simp
  | some rest =>
    obtain ⟨read,rfl⟩ := restEnds (shape ▸ found)
    have text : (0 : Byte) ∉ read := fun mem => clean ((restSuffix found).subset (List.mem_append_left _ mem))
    have size : (read ++ (crlf ++ crlf)).length = read.length + 4 := List.length_append
    simp only [size,Nat.add_sub_cancel,show ¬read.length + 4 < 4 by omega,if_false]
    split_ifs with long
    · cases h.location with
      | none => simp [size,long]
      | some url =>
        refine (meetsOk _).trans (forall_congr' fun short => iff_of_false (fun zero => absurd zero.1 (by decide)) ?_)
        rintro ⟨same,fits⟩
        have equal := congrArg List.length (Option.some.inj same)
        rw [size,List.append_assoc,List.length_append] at equal
        change read.length + 4 = url.length + 4 at equal
        omega
    · rw [meetsOk]
      dsimp only
      rw [cutText text]
      cases h.location with
      | none => simpa [size] using long
      | some url =>
        refine forall_congr' fun short => ?_
        constructor
        · rintro ⟨-,rfl⟩
          exact ⟨by rw [List.append_assoc],by omega⟩
        · rintro ⟨same,-⟩
          rw [List.append_assoc] at same
          exact ⟨rfl,List.append_cancel_right (Option.some.inj same)⟩

def locationField : Field := ⟨ascii "Location",[32],ascii "http://a/b",[],by decide +kernel,by decide,
  by decide +kernel,by decide +kernel⟩
def serverField : Field := ⟨ascii "Server",[32],ascii "n",[],by decide +kernel,by decide,by decide +kernel,by decide +kernel⟩

def movedHeader (fields : List Field) : Header := ⟨ascii "HTTP/1.1 301 Moved",by decide +kernel,fields⟩

theorem headersJoined : (movedHeader [locationField,serverField]).location = some (ascii "a/b") ∧
    (sohuParseFileUrlResponse (stringAt (movedHeader [locationField,serverField]).text)).map (fun r => (r.1,cstr r.2)) =
      .ok (0,ascii "a/b\r\nServer: n") ∧
    ¬Meets (sohuParseFileUrlResponse (stringAt (movedHeader [locationField,serverField]).text))
      (urlRead (movedHeader [locationField,serverField])) := by
  have url : (movedHeader [locationField,serverField]).location = some (ascii "a/b") := by decide
  have run : (sohuParseFileUrlResponse (stringAt (movedHeader [locationField,serverField]).text)).map (fun r => (r.1,cstr r.2)) =
      .ok (0,ascii "a/b\r\nServer: n") := by decide +kernel
  refine ⟨url,run,?_⟩
  rintro ⟨r,ends,read⟩
  unfold urlRead at read
  rw [url] at read
  rw [ends] at run
  have same := (Prod.mk.inj (Except.ok.inj run)).2.symm.trans (read (by decide)).2
  revert same
  decide

end MipsElfExec.SnoopClient

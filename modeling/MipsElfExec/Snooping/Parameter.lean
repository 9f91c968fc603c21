import MipsElfExec.Snooping.FileName

/-! The parsers that take one parameter out of a query: what they read, and which parameter they take. Here every byte
is read from the buffer of the query and the NUL behind it; a read beyond fails. -/
namespace MipsElfExec.Snooping
open CString

def matchesAt : Bytes → Bytes → Nat → Option Bool
  | [],_,_ => some true
  | c :: tag,buf,i => do
    let b ← buf[i]?
    if b = c then matchesAt tag buf (i + 1) else some false

def tagScan (tag buf : Bytes) : Nat → Nat → Option Nat
  | 0,i => some i
  | n + 1,i => do
    if ← matchesAt tag buf i then some i else tagScan tag buf n (i + 1)

def andScan (ends : Nat) (buf : Bytes) : Nat → Nat → Nat → Option Nat
  | 0,i,_ => some i
  | n + 1,i,j => do
    let b ← buf[i]?
    let j := if b = 38 then j + 1 else j
    if j = ends then some i else andScan ends buf n (i + 1) j

structure Piece where
  start : Nat
  text : Bytes
  deriving DecidableEq, Repr

def paraKeyIn (tag : Bytes) (ends : Nat) (para : Bytes) : Option (Option Piece) := do
  let i ← tagScan tag (para ++ [0]) para.length 0
  if i = para.length then some none
  else if i = 0 then none
  else
    let buf := (para ++ [0]).set (i - 1) 95
    let stop ← andScan ends buf (para.length - i + 1) (i - 1) 0
    some (some ⟨i - 1,slice buf (i - 1) stop⟩)

structure Param where
  name : Bytes
  value : Bytes
  clean : 38 ∉ name ∧ 38 ∉ value ∧ 61 ∉ name ∧ (0 : Byte) ∉ name ∧ (0 : Byte) ∉ value

def Param.text (p : Param) : Bytes := p.name ++ 61 :: p.value

def joined : List Bytes → Bytes
  | [] => []
  | [text] => text
  | text :: texts => text ++ 38 :: joined texts

def queryOf (params : List Param) : Bytes := 63 :: joined (params.map Param.text)

def namedFrom (name : Bytes) : Nat → List Param → Option (Nat × List Param)
  | _,[] => none
  | before,p :: ps => if p.name = name then some (before,p :: ps) else namedFrom name (before + p.text.length + 1) ps

def namedPiece (name : Bytes) (ends : Nat) (params : List Param) : Option Piece :=
  (namedFrom name 0 params).map fun (before,ps) => ⟨before,95 :: joined ((ps.take ends).map Param.text)⟩

def KeyParse.named : KeyParse → Option (Bytes × Nat)
  | .arkLetvCom => some (ascii "ark",1)
  | .qqCom => some (ascii "vid",1)
  | .youkuAndriod => some (ascii "id",1)
  | .plYouku => some (ascii "vid",2)
  | .sohu | .sohuM3u8File => none

section reads
variable {tag para buf : Bytes}

theorem matchesPrefix (clean : (0 : Byte) ∉ tag) {i : Nat} (inside : i ≤ para.length) :
    matchesAt tag (para ++ [0]) i = some (tag.isPrefixOf (para.drop i)) := by
  induction tag generalizing i with
  | nil => rw [List.isPrefixOf_nil_left]; rfl
  | cons c tag ih =>
    rw [List.mem_cons,not_or] at clean
    unfold matchesAt
    rcases Nat.lt_or_eq_of_le inside with more | last
    · have here : (para ++ [0])[i]? = some para[i] := by
        rw [List.getElem?_append_left more,List.getElem?_eq_getElem more]
      have next := ih clean.2 (Nat.succ_le_of_lt more)
      rw [here,List.drop_eq_getElem_cons more]
      simp only [bind,Option.bind_some,next,List.isPrefixOf]
      by_cases same : para[i] = c
      · simp [same]
      · simp [same,Ne.symm same]
    · have here : (para ++ [0])[i]? = some 0 := by rw [last]; simp
      rw [here,last,List.drop_length]
      simp only [bind,Option.bind_some,if_neg clean.1]
      rfl

theorem tagSearch (some_ : tag ≠ []) (clean : (0 : Byte) ∉ tag) {n i : Nat} (left : i + n = para.length) :
    tagScan tag (para ++ [0]) n i = some (i + (search tag (para.drop i)).getD n) := by
  induction n generalizing i with
  | zero =>
    have ended : para.drop i = [] := List.drop_eq_nil_of_le (by omega)
    rw [ended,search,if_neg some_]
    rfl
  | succ n ih =>
    have more : i < para.length := by omega
    have step := ih (i := i + 1) (by omega)
    unfold tagScan
    rw [matchesPrefix clean more.le,List.drop_eq_getElem_cons more]
    unfold search
    simp only [bind,Option.bind_some]
    split
    · rfl
    · rw [step]
      cases search tag (para.drop (i + 1)) with
      | none => simp only [Option.map_none,Option.getD_none]; congr 1; omega
      | some k => simp only [Option.map_some,Option.getD_some]; congr 1; omega

theorem andStops {ends n i j : Nat} (inside : i + n ≤ buf.length) (below : j < ends) :
    andScan ends buf n i j = some (i + (paraScan false (ends - j) ((buf.drop i).take n)).length) := by
  induction n generalizing i j with
  | zero => rw [List.take_zero]; rfl
  | succ n ih =>
    have more : i < buf.length := by omega
    unfold andScan
    rw [List.getElem?_eq_getElem more,List.drop_eq_getElem_cons more,List.take_succ_cons,paraScan]
    simp only [bind,Option.bind_some]
    by_cases amp : buf[i] = 38
    · rw [if_pos amp,if_pos amp]
      by_cases last : j + 1 = ends
      · rw [if_pos last,if_pos (by omega)]
        rfl
      · have count : ends - j - 1 = ends - (j + 1) := by omega
        rw [if_neg last,if_neg (by omega),ih (by omega) (by omega),List.length_cons,count]
        congr 1
        omega
    · rw [if_neg amp,if_neg amp,if_neg (by omega),ih (by omega) below,List.length_cons]
      congr 1
      omega

theorem scanPrefix (n : Nat) (text : Bytes) : (paraScan false n text) <+: text := by
  induction text generalizing n with
  | nil => exact List.prefix_rfl
  | cons b text ih =>
    unfold paraScan
    split
    · split
      · exact List.nil_prefix
      · exact (List.prefix_cons_inj b).mpr (ih _)
    · exact (List.prefix_cons_inj b).mpr (ih _)

theorem paraKeyReads (some_ : tag ≠ []) (clean : (0 : Byte) ∉ tag) {ends : Nat} (ends_ : 0 < ends)
    (behind : tag.isPrefixOf para = false) : paraKeyIn tag ends para =
      some ((search tag para).map fun i => ⟨i - 1,95 :: paraScan false ends (para.drop i)⟩) := by
  have found := tagSearch some_ clean (Nat.zero_add para.length)
  rw [List.drop_zero,Nat.zero_add] at found
  unfold paraKeyIn
  rw [found]
  simp only [bind,Option.bind_some]
  cases place : search tag para with
  | none => rw [Option.getD_none,if_pos rfl]; rfl
  | some i =>
    have bound := searchBound place
    have long : 0 < tag.length := List.length_pos_iff.mpr some_
    have first : i ≠ 0 := by
      intro zero
      have whole := searchFound place
      rw [zero,List.take_zero,List.nil_append] at whole
      have here : tag.isPrefixOf para = true := List.isPrefixOf_iff_prefix.mpr ⟨_,whole.symm⟩
      rw [behind] at here
      cases here
    have text : (((para ++ [0]).set (i - 1) 95).drop (i - 1)).take (para.length - i + 1) = 95 :: para.drop i := by
      have inside : i - 1 < ((para ++ [0]).set (i - 1) 95).length := by
        rw [List.length_set,List.length_append]
        omega
      have next : i - 1 + 1 = i := by omega
      rw [List.drop_eq_getElem_cons inside,List.getElem_set_self,next,List.drop_set_of_lt (by omega),
        List.drop_append_of_le_length (by omega),List.take_succ_cons,← List.length_drop,List.take_left]
    have stop := @andStops ((para ++ [0]).set (i - 1) 95) ends (para.length - i + 1) (i - 1) 0
      (by rw [List.length_set,List.length_append,List.length_singleton]; omega) ends_
    have scan : paraScan false ends (95 :: para.drop i) = 95 :: paraScan false ends (para.drop i) := by
      rw [paraScan,if_neg (by decide)]
      rfl
    rw [text,Nat.sub_zero,scan] at stop
    rw [Option.getD_some,if_neg (by omega),if_neg first,stop]
    simp only [Option.bind_some,Option.map_some]
    congr 3
    have front : 95 :: paraScan false ends (para.drop i) <+: ((para ++ [0]).set (i - 1) 95).drop (i - 1) := by
      rw [← scan]
      exact (scanPrefix ends _).trans (text ▸ List.take_prefix _ _)
    unfold slice
    rw [Nat.add_sub_cancel_left]
    exact (List.prefix_iff_eq_take.mp front).symm

end reads

section params
variable {name tag : Bytes} {p : Param} {ps params : List Param} {ends : Nat}

theorem joinedCons (text : Bytes) {texts : List Bytes} (more : texts ≠ []) :
    joined (text :: texts) = text ++ 38 :: joined texts := by
  cases texts with
  | nil => exact absurd rfl more
  | cons _ _ => rfl

theorem textClean (p : Param) : 38 ∉ p.text := by
  obtain ⟨name,value,_,_,_⟩ := p.clean
  simp [Param.text,name,value]

theorem scanKeeps {text : Bytes} (clean : 38 ∉ text) (rest : Bytes) :
    paraScan false ends (text ++ rest) = text ++ paraScan false ends rest := by
  induction text with
  | nil => rfl
  | cons b text ih =>
    rw [List.mem_cons,not_or] at clean
    rw [List.cons_append,paraScan,if_neg (Ne.symm clean.1),ih clean.2]
    rfl

theorem scanJoined {texts : List Bytes} (clean : ∀ text ∈ texts,38 ∉ text) (ends_ : 0 < ends) :
    paraScan false ends (joined texts) = joined (texts.take ends) := by
  induction texts generalizing ends with
  | nil => rw [List.take_nil]; rfl
  | cons text texts ih =>
    obtain ⟨ends,rfl⟩ : ∃ n,ends = n + 1 := ⟨ends - 1,by omega⟩
    have here : 38 ∉ text := clean text List.mem_cons_self
    cases texts with
    | nil =>
      have alone := @scanKeeps (ends + 1) text here []
      rw [List.append_nil] at alone
      rw [List.take_succ_cons,List.take_nil]
      exact alone.trans (List.append_nil text)
    | cons next texts =>
      rw [joinedCons text (List.cons_ne_nil _ _),scanKeeps here,paraScan,if_pos rfl,List.take_succ_cons]
      cases ends with
      | zero => rw [if_pos (Nat.le_refl 1),List.append_nil]; rfl
      | succ ends =>
        have more := ih (fun text mem => clean text (List.mem_cons_of_mem _ mem)) (Nat.succ_pos ends)
        rw [if_neg (by omega),Nat.add_sub_cancel,more,List.take_succ_cons]
        rfl

theorem searchJoined (some_ : tag ≠ []) (clean : 38 ∉ tag) : search tag (joined ((p :: ps).map Param.text)) =
    (search tag p.text).or ((search tag (joined (ps.map Param.text))).map (· + (p.text.length + 1))) := by
  cases ps with
  | nil =>
    change search tag p.text = (search tag p.text).or ((search tag []).map _)
    rw [search,if_neg some_,Option.map_none,Option.or_none]
  | cons q ps =>
    rw [List.map_cons,joinedCons p.text (by simp)]
    exact searchSplit some_ clean p.text _

theorem dropJoined (i : Nat) : (joined ((p :: ps).map Param.text)).drop (i + (p.text.length + 1)) =
    (joined (ps.map Param.text)).drop i := by
  cases ps with
  | nil =>
    change p.text.drop _ = ([] : Bytes).drop i
    rw [List.drop_nil,List.drop_eq_nil_of_le (by omega)]
  | cons q ps =>
    have next : i + (p.text.length + 1) = p.text.length + (1 + i) := by omega
    rw [List.map_cons,joinedCons p.text (by simp),next,← List.drop_drop,List.drop_left,← List.drop_drop]
    rfl

theorem namedBehind {before place : Nat} {rest : List Param} (found : namedFrom name before ps = some (place,rest)) :
    before ≤ place := by
  induction ps generalizing before with
  | nil => cases found
  | cons p ps ih =>
    unfold namedFrom at found
    split at found
    · cases found
      exact Nat.le_refl _
    · exact (Nat.le_add_right _ _).trans ((Nat.le_add_right _ 1).trans (ih found))

def tagClear (name : Bytes) (params : List Param) : Prop :=
  ∀ p ∈ params.takeWhile (·.name ≠ name),search (name ++ [61]) p.text = none

def tagPiece (name : Bytes) (ends before : Nat) (params : List Param) : Option Piece :=
  (search (name ++ [61]) (joined (params.map Param.text))).map fun i =>
    ⟨before + i,95 :: paraScan false ends ((joined (params.map Param.text)).drop i)⟩

def namedPieceFrom (name : Bytes) (ends before : Nat) (params : List Param) : Option Piece :=
  (namedFrom name before params).map fun (before,ps) => ⟨before,95 :: joined ((ps.take ends).map Param.text)⟩

theorem pieceExact (clean : 38 ∉ name) (ends_ : 0 < ends) (before : Nat) :
    tagPiece name ends before params = namedPieceFrom name ends before params ↔ tagClear name params := by
  have some_ : name ++ [61] ≠ [] := by simp
  have plain : 38 ∉ name ++ [61] := by simp [clean]
  induction params generalizing before with
  | nil =>
    have none_ : search (name ++ [61]) [] = none := by rw [search,if_neg some_]
    simp [tagPiece,namedPieceFrom,namedFrom,joined,none_,tagClear]
  | cons p ps ih =>
    have split := @searchJoined (name ++ [61]) p ps some_ plain
    by_cases same : p.name = name
    · have here : search (name ++ [61]) p.text = some 0 := by
        have opens : (name ++ [61]).isPrefixOf p.text = true := by
          rw [List.isPrefixOf_iff_prefix,Param.text,same]
          exact ⟨p.value,by simp⟩
        cases text : p.text with
        | nil =>
          rw [text] at opens
          exact absurd (List.prefix_nil.mp (List.isPrefixOf_iff_prefix.mp opens)) some_
        | cons b rest =>
          rw [text] at opens
          rw [search,if_pos opens]
      have all : ∀ text ∈ (p :: ps).map Param.text,38 ∉ text := by
        intro text mem
        obtain ⟨q,_,rfl⟩ := List.mem_map.mp mem
        exact textClean q
      have taken : tagPiece name ends before (p :: ps) = namedPieceFrom name ends before (p :: ps) := by
        unfold tagPiece namedPieceFrom namedFrom
        rw [split,here,if_pos same]
        simp only [Option.some_or,Option.map_some,List.drop_zero,Nat.add_zero]
        rw [scanJoined all ends_,List.map_take]
      have none_ : tagClear name (p :: ps) := by simp [tagClear,same]
      exact ⟨fun _ => none_,fun _ => taken⟩
    · have later : namedPieceFrom name ends before (p :: ps) =
          namedPieceFrom name ends (before + p.text.length + 1) ps := by
        unfold namedPieceFrom
        rw [namedFrom,if_neg same]
      have clear : tagClear name (p :: ps) ↔ search (name ++ [61]) p.text = none ∧ tagClear name ps := by
        simp [tagClear,same]
      rw [later,clear]
      cases inside : search (name ++ [61]) p.text with
      | none =>
        have moved : tagPiece name ends before (p :: ps) = tagPiece name ends (before + p.text.length + 1) ps := by
          unfold tagPiece
          rw [split,inside,Option.none_or,Option.map_map]
          congr 1
          funext i
          have place : before + (i + (p.text.length + 1)) = before + p.text.length + 1 + i := by omega
          simp only [Function.comp_apply,dropJoined,place]
        rw [moved]
        exact (ih _).trans (by simp)
      | some j =>
        have bound := searchBound inside
        refine ⟨fun taken => ?_,fun both => by cases both.1⟩
        unfold tagPiece namedPieceFrom at taken
        rw [split,inside,Option.some_or,Option.map_some] at taken
        obtain ⟨found,named,piece⟩ := Option.map_eq_some_iff.mp taken.symm
        have start : found.1 = before + j := congrArg Piece.start piece
        have far := namedBehind named
        omega

structure TakesNamed (parse : KeyParse) (name : Bytes) (ends : Nat) (params : List Param) : Prop where
  piece : paraKeyIn (name ++ [61]) ends (queryOf params) = some (namedPiece name ends params)
  key : parse.run (queryOf params) = ((namedPiece name ends params).map Piece.text).getD []

theorem namedRun {parse : KeyParse} (named : parse.named = some (name,ends)) :
    (∀ para,parse.run para = paraKey (name ++ [61]) ends false para) ∧ 0 < ends ∧ 38 ∉ name ∧ (0 : Byte) ∉ name ∧
      name.head?.any (· != 63) = true := by
  cases parse <;> cases named <;> exact ⟨fun _ => rfl,by decide,by decide,by decide,by decide⟩

/-- A parser takes the parameter of its name exactly when its tag stands in no parameter before that one, or in none at
all where no parameter has the name. -/
theorem takesNamed (parse : KeyParse) (named : parse.named = some (name,ends)) (params : List Param) :
    TakesNamed parse name ends params ↔ tagClear name params := by
  obtain ⟨run,ends_,amp,zero,first⟩ := namedRun named
  have some_ : name ++ [61] ≠ [] := by simp
  have clean : (0 : Byte) ∉ name ++ [61] := by simp [zero]
  have behind (rest : Bytes) : (name ++ [61]).isPrefixOf (63 :: rest) = false := by
    cases name with
    | nil => cases first
    | cons b name =>
      have other : b ≠ 63 := by simpa using first
      simp [List.isPrefixOf,other]
  have found : (search (name ++ [61]) (queryOf params)).map (fun i =>
      (⟨i - 1,95 :: paraScan false ends ((queryOf params).drop i)⟩ : Piece)) = tagPiece name ends 0 params := by
    unfold queryOf tagPiece
    rw [search,behind]
    simp only [Bool.false_eq_true,if_false,Option.map_map]
    congr 1
    funext i
    simp
  have exact_ := @pieceExact name params ends amp ends_ 0
  have reads : paraKeyIn (name ++ [61]) ends (queryOf params) = some ((search (name ++ [61]) (queryOf params)).map fun i =>
      ⟨i - 1,95 :: paraScan false ends ((queryOf params).drop i)⟩) := paraKeyReads some_ clean ends_ (behind _)
  rw [found] at reads
  rw [← exact_]
  constructor
  · intro takes
    exact Option.some.inj (reads.symm.trans takes.piece)
  · intro same
    refine ⟨reads.trans (congrArg some same),?_⟩
    have key : parse.run (queryOf params) = ((tagPiece name ends 0 params).map Piece.text).getD [] := by
      rw [run,paraKey,← found]
      cases search (name ++ [61]) (queryOf params) <;> rfl
    rw [key,same]
    rfl

def otypeParam : Param := ⟨ascii "otype",ascii "json",by decide⟩
def vidParam : Param := ⟨ascii "vid",ascii "v00149uf4ir",by decide⟩
def pidParam : Param := ⟨ascii "pid",ascii "5",by decide⟩
def idParam : Param := ⟨ascii "id",ascii "7",by decide⟩

theorem showTakes : TakesNamed .qqCom (ascii "vid") 1 [otypeParam,vidParam] :=
  (takesNamed .qqCom rfl [otypeParam,vidParam]).mpr (by unfold tagClear; decide)

theorem pidTaken : queryOf [pidParam,idParam] = ascii "?pid=5&id=7" ∧
    KeyParse.run .youkuAndriod (queryOf [pidParam,idParam]) = ascii "_id=5" ∧
    (namedPiece (ascii "id") 1 [pidParam,idParam]).map Piece.text = some (ascii "_id=7") ∧
    KeyParse.run .youkuAndriod (queryOf [pidParam]) = ascii "_id=5" ∧ namedPiece (ascii "id") 1 [pidParam] = none ∧
    ¬TakesNamed .youkuAndriod (ascii "id") 1 [pidParam,idParam] ∧ ¬TakesNamed .youkuAndriod (ascii "id") 1 [pidParam] := by
  have both : KeyParse.run .youkuAndriod (queryOf [pidParam,idParam]) = ascii "_id=5" := by decide
  have alone : KeyParse.run .youkuAndriod (queryOf [pidParam]) = ascii "_id=5" := by decide
  refine ⟨by decide,both,by decide,alone,by decide,fun takes => ?_,fun takes => ?_⟩
  · exact absurd (both.symm.trans takes.key) (by decide)
  · exact absurd (alone.symm.trans takes.key) (by decide)

end params

end MipsElfExec.Snooping

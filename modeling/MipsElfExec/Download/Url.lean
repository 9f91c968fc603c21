import MipsElfExec.Download.Scheduler

/-! Which texts name a download: [http://]host[:port]/path, where the last part of the path names the local file. The
grammar is said without cursors; the parser of http_dl_create_info finds the scheme anywhere in the text. -/
namespace MipsElfExec.Download
open CString

def httpUrlPrefix : Bytes := ascii "http://"

def decimalValue (digits : Bytes) : Nat := digits.foldl (fun n b => n * 10 + (b.toNat - 48)) 0

def PortText (text : Bytes) (port : Nat) : Prop :=
  text = [] ∧ port = 80 ∨ ∃ digits,text = 58 :: digits ∧ (∀ b ∈ digits,isdigit b = true) ∧ decimalValue digits ≤ 65535 ∧
    port = if decimalValue digits ≠ 0 then decimalValue digits else 80

def PathEnds (tail : Bytes) : Prop := ∀ b ∈ tail.head?,b = 32 ∨ b = 10

structure Locates (text : Bytes) (target : Target) : Prop where
  parts : ∃ port tail,text = target.host ++ port ++ target.path ++ tail ∧ PortText port target.port ∧ PathEnds tail
  host : target.host ≠ [] ∧ target.host.length < httpDlHostLen ∧ ∀ b ∈ target.host,b ≠ 47 ∧ b ≠ 58
  path : target.path.head? = some 47 ∧ target.path.length < httpDlPathLen ∧ ∀ b ∈ target.path,b ≠ 32 ∧ b ≠ 10
  file : ∃ parents,target.path = parents ++ 47 :: target.localName ∧ (47 : Byte) ∉ target.localName ∧
    target.localName ≠ [] ∧ target.localName.length < httpDlLocalLen

def schemeless (url : Bytes) : Bytes := if httpUrlPrefix.isPrefixOf url then url.drop 7 else url

def behindScheme (url : Bytes) : Bytes :=
  match strstr url httpUrlPrefix with
  | some n => url.drop (n + 7)
  | none => url

def Names (url : Bytes) (target : Target) : Prop := url.length < httpDlUrlLen ∧ Locates (schemeless url) target

def WellPlaced (url : Bytes) : Prop := url.length < httpDlUrlLen →
  strstr url httpUrlPrefix = none ∨ strstr url httpUrlPrefix = some 0 ∨
    ∀ target,Locates (schemeless url) target ↔ Locates (behindScheme url) target

def hostTarget (p : Bytes) : Option Target :=
  let host := p.takeWhile fun b => b ≠ 47 && b ≠ 58
  match p.drop host.length with
  | [] => none
  | b :: rest =>
    if b = 58 then
      match readPort 0 rest with
      | some (port,47 :: text) => pathTarget host port (47 :: text)
      | _ => none
    else pathTarget host 0 (b :: rest)

theorem urlTargetHost (url : Bytes) : urlTarget url = if httpDlUrlLen ≤ url.length then none else hostTarget (behindScheme url) := rfl

section parts
variable {text rest host : Bytes} {port n : Nat} {target : Target}

theorem takeExact {p : Byte → Bool} {xs ys : Bytes} (all : ∀ b ∈ xs,p b = true) (stop : ∀ b ∈ ys.head?,p b = false) :
    (xs ++ ys).takeWhile p = xs := by
  rw [List.takeWhile_append_of_pos all]
  cases ys with
  | nil => rw [List.takeWhile_nil,List.append_nil]
  | cons b ys => rw [List.takeWhile_cons,if_neg (by rw [stop b rfl]; decide),List.append_nil]

theorem dropStops (p : Byte → Bool) (xs : Bytes) : ∀ b ∈ (xs.dropWhile p).head?,p b = false := by
  have first := List.head?_dropWhile_not p xs
  intro b mem
  rw [Option.mem_def.mp mem] at first
  exact first

theorem localNameIs {parents name : Bytes} (clean : (47 : Byte) ∉ name) : localName (parents ++ 47 :: name) = name := by
  have all : ∀ b ∈ name.reverse,decide (b ≠ (47 : Byte)) = true := untilAll (by simpa using clean)
  rw [localName,List.reverse_append,List.reverse_cons,List.append_assoc,takeExact all (by simp),List.reverse_reverse]

theorem localNameParts {path : Bytes} (slash : (47 : Byte) ∈ path) :
    ∃ parents,path = parents ++ 47 :: localName path ∧ (47 : Byte) ∉ localName path := by
  have whole := (List.takeWhile_append_dropWhile (p := fun b : Byte => decide (b ≠ 47)) (l := path.reverse)).symm
  have clean : (47 : Byte) ∉ localName path := by
    rw [localName,List.mem_reverse]
    exact untilClean 47 path.reverse
  rcases untilStop 47 path.reverse with none_ | ⟨more,found⟩
  · rw [none_,List.append_nil] at whole
    have inside : (47 : Byte) ∈ path.reverse := List.mem_reverse.mpr slash
    rw [whole] at inside
    exact absurd inside (untilClean 47 path.reverse)
  · rw [found] at whole
    have both := congrArg List.reverse whole
    rw [List.reverse_reverse,List.reverse_append,List.reverse_cons,List.append_assoc] at both
    exact ⟨more.reverse,both,clean⟩

theorem pathTargetIff (slash : text.head? = some 47) : pathTarget host port text = some target ↔
    (host ≠ [] ∧ host.length < httpDlHostLen) ∧ target.host = host ∧ target.port = (if port ≠ 0 then port else 80) ∧
    (∃ tail,text = target.path ++ tail ∧ PathEnds tail) ∧
    (target.path.head? = some 47 ∧ target.path.length < httpDlPathLen ∧ ∀ b ∈ target.path,b ≠ 32 ∧ b ≠ 10) ∧
    ∃ parents,target.path = parents ++ 47 :: target.localName ∧ (47 : Byte) ∉ target.localName ∧
      target.localName ≠ [] ∧ target.localName.length < httpDlLocalLen := by
  have inPath (b : Byte) : (b ≠ 32 && b ≠ 10) = true ↔ b ≠ 32 ∧ b ≠ 10 := by simp
  have offPath (b : Byte) : (b ≠ 32 && b ≠ 10) = false ↔ b = 32 ∨ b = 10 := by
    rw [Bool.and_eq_false_iff]
    simp
  unfold pathTarget
  dsimp only
  constructor
  · intro named
    split at named
    · cases named
    · rename_i hosted
      split at named
      · cases named
      · rename_i pathed
        split at named
        · cases named
        · rename_i filed
          cases named
          dsimp only
          rw [not_or,Nat.not_le] at hosted pathed filed
          have front : (text.takeWhile fun b => b ≠ 32 && b ≠ 10).head? = some 47 := by
            cases text with
            | nil => cases slash
            | cons b text =>
              cases slash
              rfl
          refine ⟨hosted,rfl,rfl,⟨_,(List.takeWhile_append_dropWhile ..).symm,?_⟩,
            ⟨front,pathed.2,fun b mem => (inPath b).mp (List.mem_takeWhile_imp (p := fun b : Byte => b ≠ 32 && b ≠ 10) mem)⟩,?_⟩
          · exact fun b mem => (offPath b).mp (dropStops _ _ b mem)
          · obtain ⟨parents,same,clean⟩ := localNameParts (List.mem_of_mem_head? front)
            exact ⟨parents,same,clean,filed.1,filed.2⟩
  · rintro ⟨hosted,rfl,port_,⟨tail,rfl,ends⟩,⟨front,short,inside⟩,parents,path,clean,some_,small⟩
    have cut : (target.path ++ tail).takeWhile (fun b => b ≠ 32 && b ≠ 10) = target.path :=
      takeExact (fun b mem => (inPath b).mpr (inside b mem)) fun b mem => (offPath b).mpr (ends b mem)
    have name : localName target.path = target.localName := by
      rw [path]
      exact localNameIs clean
    have started : target.path ≠ [] := fun empty => by rw [empty] at front; cases front
    rw [if_neg (not_or.mpr ⟨hosted.1,Nat.not_le.mpr hosted.2⟩),cut,name,if_neg (not_or.mpr ⟨started,Nat.not_le.mpr short⟩),
      if_neg (not_or.mpr ⟨some_,Nat.not_le.mpr small⟩),← port_]

theorem valueGrows (digits : Bytes) (n : Nat) : n ≤ digits.foldl (fun n b => n * 10 + (b.toNat - 48)) n := by
  induction digits generalizing n with
  | nil => exact Nat.le_refl n
  | cons b digits ih => exact Nat.le_trans (by omega : n ≤ n * 10 + (b.toNat - 48)) (ih _)

theorem readPortIff (small : n ≤ 65535) : readPort n text = some (port,rest) ↔ ∃ digits,text = digits ++ rest ∧
    (∀ b ∈ digits,isdigit b = true) ∧ (∀ b ∈ rest.head?,isdigit b = false) ∧
    port = digits.foldl (fun n b => n * 10 + (b.toNat - 48)) n ∧ port ≤ 65535 := by
  induction text generalizing n with
  | nil =>
    constructor
    · intro read
      cases read
      exact ⟨[],rfl,nofun,nofun,rfl,small⟩
    · rintro ⟨digits,whole,_,_,rfl,_⟩
      obtain ⟨rfl,rfl⟩ := List.append_eq_nil_iff.mp whole.symm
      rfl
  | cons b text ih =>
    rw [readPort]
    rcases Bool.eq_false_or_eq_true (isdigit b) with digit | other
    · rw [if_pos digit]
      split
      · rename_i large
        refine iff_of_false nofun ?_
        rintro ⟨digits,whole,_,stop,rfl,limit⟩
        cases digits with
        | nil =>
          cases whole
          exact absurd (digit.symm.trans (stop b rfl)) Bool.noConfusion
        | cons c digits =>
          cases whole
          exact absurd (Nat.le_trans (valueGrows digits _) limit) (Nat.not_le.mpr large)
      · rename_i fits
        rw [ih (Nat.not_lt.mp fits)]
        constructor
        · rintro ⟨digits,rfl,all,stop,value,limit⟩
          exact ⟨b :: digits,rfl,List.forall_mem_cons.mpr ⟨digit,all⟩,stop,value,limit⟩
        · rintro ⟨digits,whole,all,stop,value,limit⟩
          cases digits with
          | nil =>
            cases whole
            exact absurd (digit.symm.trans (stop b rfl)) Bool.noConfusion
          | cons c digits =>
            cases whole
            exact ⟨digits,rfl,(List.forall_mem_cons.mp all).2,stop,value,limit⟩
    · rw [if_neg (by rw [other]; decide)]
      constructor
      · intro read
        cases read
        exact ⟨[],rfl,nofun,fun c same => Option.some.inj same ▸ other,rfl,small⟩
      · rintro ⟨digits,whole,all,_,rfl,_⟩
        cases digits with
        | nil =>
          cases whole
          rfl
        | cons c digits =>
          cases whole
          exact absurd ((all b List.mem_cons_self).symm.trans other) Bool.noConfusion

theorem inHost (b : Byte) : (b ≠ 47 && b ≠ 58) = true ↔ b ≠ 47 ∧ b ≠ 58 := by simp

theorem offHost (b : Byte) : (b ≠ 47 && b ≠ 58) = false ↔ b = 47 ∨ b = 58 := by
  rw [Bool.and_eq_false_iff]
  simp

theorem hostTargetLocates (read : hostTarget text = some target) : Locates text target := by
  have inside : ∀ b ∈ text.takeWhile fun b => b ≠ 47 && b ≠ 58,b ≠ 47 ∧ b ≠ 58 := fun b mem =>
    (inHost b).mp (List.mem_takeWhile_imp (p := fun b : Byte => b ≠ 47 && b ≠ 58) mem)
  have whole := (List.takeWhile_append_dropWhile (p := fun b : Byte => b ≠ 47 && b ≠ 58) (l := text)).symm
  have stop := dropStops (fun b : Byte => b ≠ 47 && b ≠ 58) text
  have behind : text.drop (text.takeWhile fun b => b ≠ 47 && b ≠ 58).length = text.dropWhile fun b => b ≠ 47 && b ≠ 58 := by
    conv => lhs; arg 2; rw [whole]
    exact List.drop_left
  unfold hostTarget at read
  dsimp only at read
  rw [behind] at read
  generalize (text.takeWhile fun b => b ≠ 47 && b ≠ 58) = host at *
  generalize (text.dropWhile fun b => b ≠ 47 && b ≠ 58) = tail at *
  cases tail with
  | nil => cases read
  | cons b rest =>
    dsimp only at read
    split at read
    · rename_i colon
      subst colon
      split at read
      · rename_i port path ported
        obtain ⟨hosted,rfl,portIs,⟨tail,rest_,ends⟩,path_,file⟩ := (pathTargetIff rfl).mp read
        obtain ⟨digits,rfl,all,_,value,limit⟩ := (readPortIff (Nat.zero_le _)).mp ported
        have same : port = decimalValue digits := value
        refine ⟨⟨58 :: digits,tail,?_,.inr ⟨digits,rfl,all,same ▸ limit,same ▸ portIs⟩,ends⟩,
          ⟨hosted.1,hosted.2,inside⟩,path_,file⟩
        rw [whole,rest_]
        simp
      · cases read
    · rename_i other
      have slash : (b :: rest).head? = some 47 := by
        rw [List.head?_cons,((offHost b).mp (stop b rfl)).resolve_right other]
      obtain ⟨hosted,rfl,portIs,⟨tail,rest_,ends⟩,path_,file⟩ := (pathTargetIff slash).mp read
      refine ⟨⟨[],tail,?_,.inl ⟨rfl,portIs⟩,ends⟩,⟨hosted.1,hosted.2,inside⟩,path_,file⟩
      rw [whole,rest_,List.append_nil,List.append_assoc]

theorem locatesHostTarget (L : Locates text target) : hostTarget text = some target := by
  obtain ⟨port,tail,rfl,ported,ends⟩ := L.parts
  obtain ⟨some_,short,clean⟩ := L.host
  have slash : (target.path ++ tail).head? = some 47 := by
    rw [List.head?_append,L.path.1]
    rfl
  have host : ∀ b ∈ target.host,(b ≠ 47 && b ≠ 58) = true := fun b mem => (inHost b).mpr (clean b mem)
  have cut (more : Bytes) (stop : ∀ b ∈ more.head?,b = 47 ∨ b = 58) :
      (target.host ++ more).takeWhile (fun b => b ≠ 47 && b ≠ 58) = target.host := takeExact host fun b mem => (offHost b).mpr (stop b mem)
  obtain ⟨path,start⟩ : ∃ path,target.path ++ tail = 47 :: path := by
    cases same : target.path ++ tail with
    | nil => rw [same] at slash; cases slash
    | cons b path =>
      rw [same] at slash
      cases slash
      exact ⟨path,rfl⟩
  have named (value : Nat) (port_ : target.port = if value ≠ 0 then value else 80) :
      pathTarget target.host value (target.path ++ tail) = some target :=
    (pathTargetIff slash).mpr ⟨⟨some_,short⟩,rfl,port_,⟨tail,rfl,ends⟩,L.path,L.file⟩
  unfold hostTarget
  dsimp only
  rcases ported with ⟨rfl,port_⟩ | ⟨digits,rfl,all,limit,port_⟩
  · have zero := named 0 (by rw [port_]; rfl)
    rw [List.append_nil,List.append_assoc,start] at *
    rw [cut (47 :: path) (fun b mem => .inl (Option.some.inj mem).symm),List.drop_left]
    exact zero
  · have read : readPort 0 (digits ++ (target.path ++ tail)) = some (decimalValue digits,target.path ++ tail) := by
      refine (readPortIff (Nat.zero_le _)).mpr ⟨digits,rfl,all,fun b mem => ?_,rfl,limit⟩
      rw [slash] at mem
      cases mem
      rfl
    have value := named (decimalValue digits) port_
    rw [start] at read value
    rw [List.append_assoc,List.append_assoc,start,List.cons_append,
      cut (58 :: (digits ++ 47 :: path)) (fun b mem => .inr (Option.some.inj mem).symm),
      List.drop_left]
    dsimp only
    rw [if_pos rfl,read]
    exact value

theorem hostTargetIff : hostTarget text = some target ↔ Locates text target := ⟨hostTargetLocates,locatesHostTarget⟩

end parts

theorem searchFront {pat xs : Bytes} : search pat xs = some 0 ↔ pat.isPrefixOf xs = true := by
  cases xs with
  | nil => cases pat <;> simp [search]
  | cons b xs =>
    rw [search]
    split
    · rename_i front
      exact iff_of_true rfl front
    · rename_i behind
      refine iff_of_false (fun found => ?_) behind
      obtain ⟨n,_,next⟩ := Option.map_eq_some_iff.mp found
      cases next

theorem prefixFound {url : Bytes} : strstr url httpUrlPrefix = some 0 ↔ httpUrlPrefix.isPrefixOf url = true := by
  rw [strstr,searchFront,List.isPrefixOf_iff_prefix,List.isPrefixOf_iff_prefix]
  constructor
  · exact fun front => front.trans (cstrPrefix url)
  · rintro ⟨more,rfl⟩
    rw [cstrAppend,if_neg (by decide)]
    exact List.prefix_append _ _

theorem behindFront {url : Bytes} (front : strstr url httpUrlPrefix = none ∨ strstr url httpUrlPrefix = some 0) :
    behindScheme url = schemeless url := by
  unfold behindScheme schemeless
  rcases front with none_ | zero
  · rw [none_,if_neg]
    rw [← prefixFound,none_]
    exact Option.some_ne_none _ ∘ Eq.symm
  · rw [zero,if_pos (prefixFound.mp zero)]

/-- The parser reads what the grammar says exactly where no scheme text behind the front changes the reading. -/
theorem urlTargetExactly (url : Bytes) :
    (∀ target,urlTarget url = some target ↔ Names url target) ↔ WellPlaced url := by
  rw [urlTargetHost]
  rcases Nat.lt_or_ge url.length httpDlUrlLen with short | long
  · rw [if_neg (Nat.not_le.mpr short)]
    have reads : (∀ target,hostTarget (behindScheme url) = some target ↔ Names url target) ↔
        ∀ target,Locates (schemeless url) target ↔ Locates (behindScheme url) target := by
      refine forall_congr' fun target => ?_
      rw [hostTargetIff,Names,and_iff_right short]
      exact Iff.comm
    rw [reads]
    constructor
    · exact fun same _ => .inr (.inr same)
    · intro placed
      rcases placed short with none_ | zero | same
      · rw [behindFront (.inl none_)]
        exact fun _ => Iff.rfl
      · rw [behindFront (.inr zero)]
        exact fun _ => Iff.rfl
      · exact same
  · rw [if_pos long]
    exact iff_of_true (fun target => iff_of_false nofun fun named => absurd named.1 (Nat.not_lt.mpr long))
      fun short => absurd short (Nat.not_lt.mpr long)

theorem schemeInside : urlTarget (ascii "a/b?u=http://c/d") = some ⟨ascii "c",80,ascii "/d",ascii "d"⟩ ∧
    Names (ascii "a/b?u=http://c/d") ⟨ascii "a",80,ascii "/b?u=http://c/d",ascii "d"⟩ ∧
    ¬∀ target,urlTarget (ascii "a/b?u=http://c/d") = some target ↔ Names (ascii "a/b?u=http://c/d") target := by
  have read : urlTarget (ascii "a/b?u=http://c/d") = some ⟨ascii "c",80,ascii "/d",ascii "d"⟩ := by decide
  have named : Names (ascii "a/b?u=http://c/d") ⟨ascii "a",80,ascii "/b?u=http://c/d",ascii "d"⟩ :=
    ⟨by decide,hostTargetIff.mp (by decide)⟩
  refine ⟨read,named,fun all => ?_⟩
  have both := read.symm.trans ((all _).mpr named)
  exact absurd both (by decide)

end MipsElfExec.Download

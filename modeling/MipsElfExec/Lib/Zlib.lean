import MipsElfExec.Lib.CString

/-! Compressed streams that are read piece by piece: what the bytes so far mean, the zlib
container around a raw stream, and what a decoder of a stream promises for every call. -/
namespace MipsElfExec.Zlib
open CString

inductive Reading where
  | more (out : Bytes)
  | done (out : Bytes) (used : Nat)
  | bad (out : Bytes)
  deriving DecidableEq, Repr

def Reading.out : Reading → Bytes
  | .more out | .done out _ | .bad out => out

def Reading.behind (n : Nat) : Reading → Reading
  | .done out used => .done out (used + n)
  | .more out => .more out
  | .bad out => .bad out

structure Streaming (read : Bytes → Reading) : Prop where
  grows : ∀ bs cs,(read bs).out <+: (read (bs ++ cs)).out
  ends : ∀ {bs out used} cs,read bs = .done out used → used ≤ bs.length ∧ read (bs ++ cs) = .done out used
  fails : ∀ {bs out} cs,read bs = .bad out → read (bs ++ cs) = .bad out

structure Format where
  read : Bytes → Reading
  starts : read [] = .more []
  streaming : Streaming read

def Format.Encodes (F : Format) (e x : Bytes) : Prop := F.read e = .done x e.length

section format
variable {F : Format} {bs cs out x : Bytes}

theorem moreBefore (later : F.read (bs ++ cs) = .more out) : ∃ out',F.read bs = .more out' := by
  cases now : F.read bs with
  | more out' => exact ⟨out',rfl⟩
  | done out' used => cases (F.streaming.ends cs now).2.symm.trans later
  | bad out' => cases (F.streaming.fails cs now).symm.trans later

theorem encodesFront (whole : F.Encodes (bs ++ cs) x) (left : cs ≠ []) : ∃ out',F.read bs = .more out' := by
  cases now : F.read bs with
  | more out' => exact ⟨out',rfl⟩
  | done out' used =>
    obtain ⟨short,same⟩ := F.streaming.ends cs now
    cases same.symm.trans whole
    rw [List.length_append] at short
    exact absurd (List.length_eq_zero_iff.mp (by omega)) left
  | bad out' => cases (F.streaming.fails cs now).symm.trans whole

theorem encodesSome (whole : F.Encodes bs x) : bs ≠ [] := by
  rintro rfl
  cases F.starts.symm.trans whole

end format

section container

theorem behindOut (n : Nat) (r : Reading) : (r.behind n).out = r.out := by cases r <;> rfl

def readByte (body : Byte → Bytes → Reading) : Bytes → Reading
  | [] => .more []
  | b :: rest => (body b rest).behind 1

theorem streamingByte {body : Byte → Bytes → Reading} (each : ∀ b,Streaming (body b)) : Streaming (readByte body) := by
  refine ⟨fun bs cs => ?_,fun {bs out used} cs done => ?_,fun {bs out} cs bad => ?_⟩
  · cases bs with
    | nil => exact List.nil_prefix
    | cons b rest =>
      change ((body b rest).behind 1).out <+: ((body b (rest ++ cs)).behind 1).out
      rw [behindOut,behindOut]
      exact (each b).grows rest cs
  · cases bs with
    | nil => cases done
    | cons b rest =>
      change (body b rest).behind 1 = _ at done
      change _ ∧ (body b (rest ++ cs)).behind 1 = _
      cases now : body b rest with
      | more out' | bad out' =>
        rw [now] at done
        cases done
      | done out' used' =>
        rw [now] at done
        cases done
        obtain ⟨short,same⟩ := (each b).ends cs now
        rw [same]
        exact ⟨Nat.add_le_add_right short 1,rfl⟩
  · cases bs with
    | nil => cases bad
    | cons b rest =>
      change (body b rest).behind 1 = _ at bad
      change (body b (rest ++ cs)).behind 1 = _
      cases now : body b rest with
      | more out' | done out' used' =>
        rw [now] at bad
        cases bad
      | bad out' =>
        rw [now] at bad
        cases bad
        rw [(each b).fails cs now]
        rfl

theorem streamingBad : Streaming fun _ => .bad [] :=
  ⟨fun _ _ => List.nil_prefix,fun _ done => (by cases done),fun _ bad => bad⟩

def headerOk (cmf flg : Byte) : Bool :=
  (cmf.toNat * 256 + flg.toNat) % 31 == 0 && cmf.toNat % 16 == 8 && cmf.toNat / 16 ≤ 7

def adlerSums (bs : Bytes) : Nat × Nat := bs.foldl (fun s b =>
  let a := (s.1 + b.toNat) % 65521
  (a,(s.2 + a) % 65521)) (1,0)

def adler32 (bs : Bytes) : Bytes :=
  let sums := adlerSums bs
  [sums.2 / 256,sums.2 % 256,sums.1 / 256,sums.1 % 256].map UInt8.ofNat

def readChecked (F : Format) (bs : Bytes) : Reading :=
  match F.read bs with
  | .more out => .more out
  | .bad out => .bad out
  | .done out used =>
    let tail := bs.drop used
    if tail.length < 4 then .more out
    else if tail.take 4 = adler32 out then .done out (used + 4)
    else .bad out

theorem streamingChecked (F : Format) : Streaming (readChecked F) := by
  have checked (bs cs : Bytes) {out : Bytes} {used : Nat} (now : F.read bs = .done out used) :
      readChecked F (bs ++ cs) =
        if (bs.drop used ++ cs).length < 4 then .more out
        else if (bs.drop used ++ cs).take 4 = adler32 out then .done out (used + 4)
        else .bad out := by
    obtain ⟨short,same⟩ := F.streaming.ends cs now
    unfold readChecked
    rw [same]
    dsimp only
    rw [List.drop_append_of_le_length short]
  have outOf (bs : Bytes) : (readChecked F bs).out = (F.read bs).out := by
    unfold readChecked
    split
    · rename_i now
      rw [now]
    · rename_i now
      rw [now]
    · rename_i now
      rw [now]
      dsimp only
      split
      · rfl
      · split <;> rfl
  refine ⟨fun bs cs => ?_,fun {bs out used} cs done => ?_,fun {bs out} cs bad => ?_⟩
  · rw [outOf,outOf]
    exact F.streaming.grows bs cs
  · cases now : F.read bs with
    | more out' | bad out' =>
      unfold readChecked at done
      rw [now] at done
      cases done
    | done out' used' =>
      have here := checked bs [] now
      rw [List.append_nil,List.append_nil,done] at here
      rw [checked bs cs now]
      split at here <;> try contradiction
      rename_i long
      split at here <;> try contradiction
      rename_i check
      cases here
      rw [List.length_drop] at long
      refine ⟨by omega,?_⟩
      rw [if_neg (by rw [List.length_append,List.length_drop]; omega),
        List.take_append_of_le_length (by rw [List.length_drop]; omega),if_pos check]
  · cases now : F.read bs with
    | more out' =>
      unfold readChecked at bad
      rw [now] at bad
      cases bad
    | bad out' =>
      unfold readChecked at bad ⊢
      rw [now] at bad
      cases bad
      rw [F.streaming.fails cs now]
    | done out' used' =>
      have here := checked bs [] now
      rw [List.append_nil,List.append_nil,bad] at here
      rw [checked bs cs now]
      split at here <;> try contradiction
      rename_i long
      split at here <;> try contradiction
      rename_i check
      cases here
      rw [if_neg (by rw [List.length_append]; omega),List.take_append_of_le_length (by omega),if_neg check]

def readDictionary (bs : Bytes) : Reading := if bs.length < 4 then .more [] else .bad []

theorem streamingDictionary : Streaming readDictionary := by
  unfold readDictionary
  refine ⟨fun bs cs => ?_,fun {bs out used} cs done => ?_,fun {bs out} cs bad => ?_⟩
  · split <;> exact List.nil_prefix
  · split at done <;> cases done
  · split at bad <;> cases bad
    rw [if_neg (by rw [List.length_append]; omega)]

def zlibBody (F : Format) (cmf flg : Byte) : Bytes → Reading :=
  if headerOk cmf flg = false then fun _ => .bad []
  else if flg.toNat / 32 % 2 = 1 then readDictionary
  else readChecked F

theorem streamingBody (F : Format) (cmf flg : Byte) : Streaming (zlibBody F cmf flg) := by
  unfold zlibBody
  split
  · exact streamingBad
  · split
    · exact streamingDictionary
    · exact streamingChecked F

def zlib (F : Format) : Format :=
  ⟨readByte fun cmf => readByte (zlibBody F cmf),rfl,streamingByte fun cmf => streamingByte (streamingBody F cmf)⟩

theorem zlibRead (F : Format) (cmf flg : Byte) (rest : Bytes) :
    (zlib F).read (cmf :: flg :: rest) = ((zlibBody F cmf flg rest).behind 1).behind 1 := rfl

end container

inductive Code where
  | ok | streamEnd | bufError | error
  deriving DecidableEq, Repr

structure Call (σ : Type) where
  state : σ
  rest : Bytes
  out : Bytes
  code : Code

-- How a call goes on: only a call that fills its room may leave input, and an end or an error is told once it is reached.
def Goes {σ : Type} (F : Format) (At : σ → Bytes → Bytes → Prop) (fed given : Bytes) (room : Nat) (c : Call σ) : Prop :=
  match c.code with
  | .ok | .bufError => At c.state fed given ∧ (c.out.length < room → c.rest = [] ∧ F.read fed = .more given)
  | .streamEnd => ∃ used,F.read fed = .done given used
  | .error => ∃ out,F.read fed = .bad out

structure Decoder (F : Format) (σ : Type) where
  init : σ
  inflate : σ → Bytes → Nat → Call σ
  At : σ → Bytes → Bytes → Prop
  start : At init [] []
  told : ∀ {s fed given},At s fed given → given <+: (F.read fed).out
  fits : ∀ {s fed given} input {room},At s fed given → 0 < room → (inflate s input room).out.length ≤ room
  stuck : ∀ {s fed given} input {room},At s fed given → 0 < room → (inflate s input room).code = .bufError →
    (inflate s input room).rest = input
  serves : ∀ {s fed given} input {room},At s fed given → 0 < room → ∃ used,
    input = used ++ (inflate s input room).rest ∧
    given ++ (inflate s input room).out <+: (F.read (fed ++ used)).out ∧
    Goes F At (fed ++ used) (given ++ (inflate s input room).out) room (inflate s input room)

def answer (F : Format) (s : Bytes × Nat) (input : Bytes) (room : Nat) : Call (Bytes × Nat) :=
  let r := F.read (s.1 ++ input)
  let out := (r.out.drop s.2).take room
  let code : Code :=
    if out.length = room then .ok
    else
      match r with
      | .more _ => if out = [] ∧ input = [] then .bufError else .ok
      | .done _ _ => .streamEnd
      | .bad _ => .error
  ⟨(s.1 ++ input,s.2 + out.length),[],out,code⟩

section rereading
variable {F : Format} {fed given : Bytes} (input : Bytes) {room : Nat}

theorem answerOut (before : given <+: (F.read fed).out) :
    given ++ (answer F (fed,given.length) input room).out <+: (F.read (fed ++ input)).out ∧
    ((answer F (fed,given.length) input room).out.length < room →
      given ++ (answer F (fed,given.length) input room).out = (F.read (fed ++ input)).out) := by
  obtain ⟨due,whole⟩ := before.trans (F.streaming.grows fed input)
  unfold answer
  dsimp only
  rw [← whole,List.drop_left]
  refine ⟨(List.prefix_append_right_inj given).mpr (List.take_prefix room due),fun few => ?_⟩
  rw [List.length_take] at few
  rw [List.take_of_length_le (by omega)]

theorem answerGoes (before : given <+: (F.read fed).out) :
    Goes F (fun s fed given => s = (fed,given.length) ∧ given <+: (F.read fed).out) (fed ++ input)
      (given ++ (answer F (fed,given.length) input room).out) room (answer F (fed,given.length) input room) := by
  obtain ⟨out,whole⟩ := @answerOut F fed given input room before
  have at_ : (answer F (fed,given.length) input room).state =
      (fed ++ input,(given ++ (answer F (fed,given.length) input room).out).length) := by
    rw [List.length_append]
    rfl
  have most : (answer F (fed,given.length) input room).out.length ≤ room := List.length_take_le _ _
  have code : (answer F (fed,given.length) input room).code =
      if (answer F (fed,given.length) input room).out.length = room then .ok
      else
        match F.read (fed ++ input) with
        | .more _ => if (answer F (fed,given.length) input room).out = [] ∧ input = [] then .bufError else .ok
        | .done _ _ => .streamEnd
        | .bad _ => .error := rfl
  rcases Nat.lt_or_ge (answer F (fed,given.length) input room).out.length room with few | full
  · have whole := whole few
    rw [if_neg (by omega)] at code
    cases now : F.read (fed ++ input) with
    | more o =>
      rw [now] at code whole
      have all := now.trans (congrArg Reading.more whole.symm)
      dsimp only at code
      split at code <;> unfold Goes <;> rw [code] <;> exact ⟨⟨at_,out⟩,fun _ => ⟨rfl,all⟩⟩
    | done o used =>
      rw [now] at code whole
      unfold Goes
      rw [code]
      exact ⟨used,now.trans (congrArg (Reading.done · used) whole.symm)⟩
    | bad o =>
      rw [now] at code
      unfold Goes
      rw [code]
      exact ⟨o,now⟩
  · rw [if_pos (by omega)] at code
    unfold Goes
    rw [code]
    exact ⟨⟨at_,out⟩,fun few => absurd few (by omega)⟩

end rereading

def rereading (F : Format) : Decoder F (Bytes × Nat) where
  init := ([],0)
  inflate := answer F
  At s fed given := s = (fed,given.length) ∧ given <+: (F.read fed).out
  start := ⟨rfl,List.nil_prefix⟩
  told at_ := at_.2
  fits _ _ _ _ := List.length_take_le _ _
  stuck input _ _ _ code := by
    unfold answer at code
    dsimp only at code
    split at code
    · cases code
    · split at code
      · split at code
        · rename_i none_
          exact none_.2.symm
        · cases code
      · cases code
      · cases code
  serves := by
    rintro _ fed given input room ⟨rfl,before⟩ _
    exact ⟨input,(List.append_nil input).symm,(answerOut input before).1,answerGoes input before⟩

def readStored (len nlen : Nat) (bs : Bytes) : Reading :=
  if len + nlen ≠ 65535 then .bad []
  else if bs.length < len then .more bs
  else .done (bs.take len) len

theorem streamingStored (len nlen : Nat) : Streaming (readStored len nlen) := by
  unfold readStored
  split
  · exact streamingBad
  · refine ⟨fun bs cs => ?_,fun {bs out used} cs done => ?_,fun {bs out} cs bad => ?_⟩
    · split
      · split
        · exact List.prefix_append bs cs
        · rw [List.take_append,List.take_of_length_le (by omega)]
          exact List.prefix_append bs _
      · rw [if_neg (by rw [List.length_append]; omega),List.take_append_of_le_length (by omega)]
    · split at done <;> cases done
      exact ⟨by omega,by rw [if_neg (by rw [List.length_append]; omega),List.take_append_of_le_length (by omega)]⟩
    · split at bad <;> cases bad

def stored : Format where
  read := readByte fun b =>
    if b.toNat % 8 ≠ 1 then fun _ => .bad []
    else readByte fun l0 => readByte fun l1 => readByte fun n0 => readByte fun n1 =>
      readStored (l0.toNat + 256 * l1.toNat) (n0.toNat + 256 * n1.toNat)
  starts := rfl
  streaming := streamingByte fun b => by
    split
    · exact streamingBad
    · exact streamingByte fun _ => streamingByte fun _ => streamingByte fun _ => streamingByte fun _ => streamingStored _ _

end MipsElfExec.Zlib

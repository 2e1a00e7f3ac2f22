import Stencil.Text.Quoted

/-! # Failures

Why a template cannot be rendered, with the facts that belong to each cause, and the one wording of
each. Beside the failures of templates and arguments there are three limits on sizes, and values that
are of no use for what is asked of them.
-/

-- Powers are those of the core library, whatever else is imported.
attribute [instance (high)] instPowNat
attribute [default_instance 20000] instPowNat

namespace Stencil

inductive Role | field | width | precision
  deriving DecidableEq

/-- What the field grammar wanted where reading stopped. -/
inductive Wanted
  | delimiter (c : Char)
  | countAfterPoint
  deriving DecidableEq

inductive Objection
  | sign
  | alignAfterSign
  | precision (letter : Option Char)
  deriving DecidableEq

/-- Decimal texts have at most 4300 digits, precisions are below 2 ^ 31, and nothing is repeated
more than 2 ^ 63 - 1 times. -/
inductive Limit | digits | precision | repetition
  deriving DecidableEq

inductive Failure
  | malformedField (wanted : Wanted) (found : Option Char) (offset : Nat)
  | invalidSpec (objection : Objection) (kind : List Char)
  | typeMismatch (letter : Option Char) (kind : List Char)
  | notEnoughArguments (role : Role) (available : Nat)
  | positionOutOfRange (role : Role) (position available : Nat)
  | codePointOutOfRange (value : Int)
  | valueTooLarge (letter : Option Char)
  | unusableCount (role : Role) (position : Nat) (typeName shown : List Char)
  | exceeded (limit : Limit)
  | notInteger (typeName : List Char)
  | negative (value : Int)
  | unsupported (typeName : List Char)
  deriving DecidableEq

def natText (n : Nat) : List Char := Nat.toDigits 10 n

def intText (n : Int) : List Char :=
  if n < 0 then '-' :: natText n.natAbs else natText n.natAbs

def digitLimit : Nat := 4300

def decimalText (n : Int) : Except Failure (List Char) :=
  if (natText n.natAbs).length ≤ digitLimit then .ok (intText n) else .error (.exceeded .digits)

def Role.name : Role → List Char
  | field => "field".toList
  | width => "width".toList
  | precision => "precision".toList

def Wanted.text : Wanted → List Char
  | delimiter c => Quoted.literal [c]
  | countAfterPoint => "digit or '\x7b' after '.'".toList

def Objection.text : Objection → List Char
  | sign => "sign not allowed".toList
  | alignAfterSign => "'=' alignment not allowed".toList
  | precision none => "precision not allowed".toList
  | precision (some c) => "precision not allowed with type ".toList ++ Quoted.literal [c]

def Limit.text : Limit → List Char
  | digits => "decimal text has too many digits".toList
  | precision => "precision is too large".toList
  | repetition => "text is repeated too often".toList

def Failure.message : Failure → List Char
  | malformedField wanted found offset =>
    "expected ".toList ++ wanted.text ++ " at offset ".toList ++ natText offset ++
      ", found ".toList ++ match found with
        | none => "end of template".toList
        | some c => Quoted.literal [c]
  | invalidSpec objection kind =>
    objection.text ++ " (argument kind: ".toList ++ kind ++ ")".toList
  | typeMismatch letter kind =>
    "unknown format code ".toList ++ Quoted.literal letter.toList ++
      " for argument of kind ".toList ++ kind
  | notEnoughArguments role available =>
    "not enough positional arguments for ".toList ++ role.name ++ " (".toList ++
      natText available ++ " given)".toList
  | positionOutOfRange role position available =>
    role.name ++ " position ".toList ++ natText position ++ " out of range (".toList ++
      natText available ++ " given)".toList
  | codePointOutOfRange value =>
    "codepoint ".toList ++ intText value ++ " out of range for 'c'".toList
  | valueTooLarge letter =>
    "value too large for ".toList ++ Quoted.literal letter.toList
  | unusableCount role position typeName shown =>
    role.name ++ " argument ".toList ++ natText position ++
      " must be a non-negative integer, got ".toList ++ typeName ++ " ".toList ++ shown
  | exceeded limit => limit.text
  | notInteger typeName => "expected an integer, got ".toList ++ typeName
  | negative value => "expected a non-negative integer, got ".toList ++ intText value
  | unsupported typeName => "not supported for ".toList ++ typeName

@[simp] theorem ok_bind {ε α β : Type} (a : α) (f : α → Except ε β) : (.ok a >>= f) = f a := rfl

@[simp] theorem error_bind {ε α β : Type} (e : ε) (f : α → Except ε β) :
    (.error e >>= f) = .error e := rfl

theorem bind_eq_ok_iff {ε α β : Type} {x : Except ε α} {f : α → Except ε β} {b : β} :
    x >>= f = .ok b ↔ ∃ a, x = .ok a ∧ f a = .ok b := by
  cases x with
  | error e => exact ⟨fun h => (nomatch h), fun ⟨_, h, _⟩ => (nomatch h)⟩
  | ok a => exact ⟨fun h => ⟨a, rfl, h⟩, fun ⟨_, h, hf⟩ => by cases h; exact hf⟩

theorem bind_eq_error_iff {ε α β : Type} {x : Except ε α} {f : α → Except ε β} {e : ε} :
    x >>= f = .error e ↔ x = .error e ∨ ∃ a, x = .ok a ∧ f a = .error e := by
  cases x with
  | error e' =>
    constructor
    · intro h
      cases h
      exact .inl rfl
    · rintro (h | ⟨_, h, _⟩) <;> cases h
      rfl
  | ok a =>
    constructor
    · exact fun h => .inr ⟨a, rfl, h⟩
    · rintro (h | ⟨_, h, hf⟩) <;> cases h
      exact hf

variable {α β : Type}

def FailsOnly (p : Failure → Prop) (x : Except Failure α) : Prop := ∀ e, x = .error e → p e

namespace FailsOnly

variable {p : Failure → Prop}

theorem ok (a : α) : FailsOnly p (.ok a) := by
  rintro e ⟨⟩

theorem error {e : Failure} (h : p e) : FailsOnly p (.error e : Except Failure α) := by
  rintro e ⟨⟩
  exact h

theorem mono {q : Failure → Prop} {x : Except Failure α} (h : FailsOnly p x)
    (hpq : ∀ e, p e → q e) : FailsOnly q x :=
  fun e he => hpq e (h e he)

theorem ite {c : Prop} [Decidable c] {x y : Except Failure α} (hx : FailsOnly p x)
    (hy : FailsOnly p y) : FailsOnly p (if c then x else y) := by
  split
  · exact hx
  · exact hy

theorem bind_of_eq_ok {x : Except Failure α} {f : α → Except Failure β} (hx : FailsOnly p x)
    (hf : ∀ a, x = .ok a → FailsOnly p (f a)) : FailsOnly p (x >>= f) := by
  intro e h
  rcases bind_eq_error_iff.mp h with h | ⟨a, ha, h⟩
  · exact hx e h
  · exact hf a ha e h

theorem bind {x : Except Failure α} {f : α → Except Failure β} (hx : FailsOnly p x)
    (hf : ∀ a, FailsOnly p (f a)) : FailsOnly p (x >>= f) :=
  hx.bind_of_eq_ok fun a _ => hf a

theorem map {x : Except Failure α} (hx : FailsOnly p x) (f : α → β) : FailsOnly p (x.map f) := by
  intro e h
  cases x with
  | error e' => cases h; exact hx e rfl
  | ok a => cases h

theorem mapM {f : α → Except Failure β} {as : List α} (h : ∀ a ∈ as, FailsOnly p (f a)) :
    FailsOnly p (as.mapM f) := by
  induction as with
  | nil => exact ok []
  | cons a as ih =>
    rw [List.mapM_cons]
    apply (h a (List.mem_cons_self ..)).bind
    intro b
    exact (ih fun c hc => h c (List.mem_cons_of_mem _ hc)).bind fun bs => ok _

end FailsOnly

theorem exists_mapM_eq_ok {f : α → Except Failure β} {as : List α}
    (h : ∀ a ∈ as, ∃ b, f a = .ok b) : ∃ bs, as.mapM f = .ok bs := by
  cases hm : as.mapM f with
  | ok bs => exact ⟨bs, rfl⟩
  | error e =>
    have hf : FailsOnly (fun _ => False) (as.mapM f) := .mapM fun a ha e he => by
      obtain ⟨b, hb⟩ := h a ha
      rw [hb] at he
      cases he
    exact (hf e hm).elim

theorem exists_of_mapM_eq_ok {f : α → Except Failure β} {as : List α} {bs : List β}
    (h : as.mapM f = .ok bs) : ∀ a ∈ as, ∃ b, f a = .ok b := by
  induction as generalizing bs with
  | nil => exact fun a ha => (List.not_mem_nil ha).elim
  | cons a as ih =>
    rw [List.mapM_cons] at h
    obtain ⟨b, hb, h⟩ := bind_eq_ok_iff.mp h
    obtain ⟨bs, hbs, -⟩ := bind_eq_ok_iff.mp h
    exact List.forall_mem_cons.mpr ⟨⟨b, hb⟩, ih hbs⟩

theorem eq_map_of_mapM_eq_ok {f : α → Except Failure β} {g : α → β} {as : List α} {bs : List β}
    (h : as.mapM f = .ok bs) (hg : ∀ a ∈ as, ∀ b, f a = .ok b → b = g a) : bs = as.map g := by
  induction as generalizing bs with
  | nil => cases h; rfl
  | cons a as ih =>
    rw [List.mapM_cons] at h
    obtain ⟨b, hb, h⟩ := bind_eq_ok_iff.mp h
    obtain ⟨bs, hbs, h⟩ := bind_eq_ok_iff.mp h
    cases h
    obtain ⟨hga, hgas⟩ := List.forall_mem_cons.mp hg
    rw [List.map_cons, hga b hb, ih hbs hgas]

end Stencil

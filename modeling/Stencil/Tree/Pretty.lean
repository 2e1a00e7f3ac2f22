import Stencil.Tree.Print

/-! # Pretty-printing

A value is printed in one pass over the heap, which keeps the containers that are being printed.
What is met among them is not printed again, and each of them is dropped when its entries are done.
So the pass ends, with the text of the tree that the value unfolds to.
-/

namespace Stencil

/-- A pass that can fail. It keeps the addresses of the containers being printed, which are those on
the path before and after it. -/
abbrev Printing (path : List Nat) := StateT {active : List Nat // active = path} (Except Failure)

namespace Printing

variable {α β : Type} {path : List Nat}

def within (address : Nat) (x : Printing (address :: path) α) : Printing path α :=
  fun ⟨active, h⟩ => do
    let (a, ⟨active, h⟩) ← x ⟨address :: active, congrArg (address :: ·) h⟩
    return (a, ⟨active.erase address, by rw [h, List.erase_cons_head]⟩)

end Printing

def printKey {path : List Nat} (print : Value → Printing path (List Char)) :
    Value → Printing path (List Char)
  | .string s => pure s
  | key => do return '[' :: (← print key) ++ [']']

/-- The text of a value at a level, with tags after the given order. -/
def printValue (heap : Heap) (o : PrettyOptions) (order path : List Nat) (depth : Int) (v : Value) :
    Printing path (List Char) :=
  match he : v.entries? heap with
  | none => liftM (v.text heap)
  | some (address, entries) => do
    let ⟨active, ha⟩ ← get
    if hp : address ∈ active then return "(self)".toList
    else if hn : entries = [] then return "\x7b\x7d".toList
    else
      -- What is being printed is the path, so that inside the container fewer others are left.
      have := heap.unvisited_cons_lt (Value.lt_length_of_entries? he hn) (ha ▸ hp)
      let print := printValue heap o order (address :: path) (depth + 1)
      let padding ← spaces (o.indent * (depth + 1))
      let lines ← Printing.within address (entries.mapM fun (key, value) => do
        let keyText ← printKey print key
        let valueText ← print value
        return padding ++ keyText ++ " = ".toList ++ valueText)
      let closing ← spaces (o.indent * depth)
      let head := if o.showIdentity then tag heap order address else []
      return o.enclose head closing lines
  termination_by heap.unvisited path

namespace Printing

variable {α β : Type} {path : List Nat}

def Ends (x : Printing path α) (result : Except Failure α) : Prop :=
  ∀ active, x active = result.map (·, active)

theorem Ends.pure (a : α) : Ends (pure a : Printing path α) (.ok a) := fun _ => rfl

theorem Ends.lift (result : Except Failure α) :
    Ends (liftM result : Printing path α) result := by
  intro active
  cases result <;> rfl

theorem Ends.bind {x : Printing path α} {result : Except Failure α} {f : α → Printing path β}
    {g : α → Except Failure β} (hx : Ends x result) (hf : ∀ a, Ends (f a) (g a)) :
    Ends (x >>= f) (result >>= g) := by
  intro active
  have h : (x >>= f) active = x active >>= fun (a, active) => f a active := rfl
  rw [h, hx]
  cases result with
  | error e => rfl
  | ok a => exact hf a active

theorem Ends.get {f : {active : List Nat // active = path} → Printing path α}
    {result : Except Failure α} (h : ∀ active, Ends (f active) result) :
    Ends (get >>= f) result :=
  fun active => h active active

theorem Ends.mapM {f : α → Printing path β} {g : α → Except Failure β} {as : List α}
    (h : ∀ a ∈ as, Ends (f a) (g a)) : Ends (as.mapM f) (as.mapM g) := by
  induction as with
  | nil => exact .pure _
  | cons a as ih =>
    rw [List.mapM_cons, List.mapM_cons]
    apply (h a (by simp)).bind
    intro b
    exact (ih fun c hc => h c (by simp [hc])).bind fun bs => .pure _

theorem Ends.within {address : Nat} {x : Printing (address :: path) α} {result : Except Failure α}
    (hx : Ends x result) : Ends (within address x) result := by
  rintro ⟨active, rfl⟩
  rw [Printing.within, hx]
  cases result with
  | error e => rfl
  | ok a =>
    refine congrArg (fun active => Except.ok (a, active)) (Subtype.ext ?_)
    exact List.erase_cons_head ..

end Printing

variable (heap : Heap) (o : PrettyOptions) (order : List Nat)

theorem printKey_ends {path : List Nat} {depth : Int} {key : Value}
    {print : Value → Printing path (List Char)}
    (h : (print key).Ends ((key.unfoldWithin heap path).print heap o order depth)) :
    (printKey print key).Ends ((key.unfoldWithin heap path).keyText <$>
      (key.unfoldWithin heap path).print heap o order depth) := by
  by_cases hs : ∃ s, key = .string s
  · obtain ⟨s, rfl⟩ := hs
    rw [printKey, Value.unfoldWithin]
    · exact .pure _
    · simp
  · have hs : ∀ s, key ≠ .string s := fun s h => hs ⟨s, h⟩
    rw [printKey.eq_2 print key hs, map_eq_pure_bind]
    simp only [Tree.keyText_unfoldWithin hs]
    exact h.bind fun text => .pure _

/-- The containers being printed are the path in the tree. -/
theorem printValue_ends (path : List Nat) (depth : Int) (v : Value) :
    (printValue heap o order path depth v).Ends
      ((v.unfoldWithin heap path).print heap o order depth) := by
  induction path, v using @Value.unfoldWithin_induct heap generalizing depth with
  | leaf path v he =>
    rw [printValue, Value.unfoldWithin_leaf he]
    split
    · exact .lift _
    · next h => rw [he] at h; cases h
  | self path v address entries he hp =>
    rw [printValue, Value.unfoldWithin_self he hp]
    split
    · next h => rw [he] at h; cases h
    · next h =>
      rw [he] at h
      cases h
      apply Printing.Ends.get
      rintro ⟨active, rfl⟩
      simp only [dif_pos hp]
      exact .pure _
  | branch path v address entries he hp ih =>
    rw [printValue, Value.unfoldWithin_branch he hp]
    split
    · next h => rw [he] at h; cases h
    · next h =>
      rw [he] at h
      cases h
      apply Printing.Ends.get
      rintro ⟨active, rfl⟩
      simp only [dif_neg hp]
      by_cases hnil : entries = []
      · simp only [dif_pos hnil]
        rw [hnil]
        exact .pure _
      · simp only [dif_neg hnil]
        rw [Tree.print_branch _ _ _ _ _ (by simpa using hnil)]
        apply (Printing.Ends.lift _).bind
        intro padding
        rw [List.mapM_map]
        refine .bind (.within (.mapM ?_)) fun lines => ?_
        · rintro ⟨key, value⟩ hentry
          obtain ⟨hkey, hvalue⟩ := ih _ hentry
          have hkey := printKey_ends heap o order (hkey (depth + 1))
          exact hkey.bind fun keyText => (hvalue (depth + 1)).bind fun valueText => .pure _
        · exact (Printing.Ends.lift _).bind fun closing => .pure _

def printed (v : Value) : Except Failure (List Char) :=
  (·.1) <$> printValue heap o order [] o.depth v ⟨[], rfl⟩

theorem printed_eq (v : Value) :
    printed heap o order v = (v.unfold heap).print heap o order o.depth := by
  rw [printed, printValue_ends heap o order [] o.depth v, Value.unfold]
  cases (v.unfoldWithin heap []).print heap o order o.depth <;> rfl

/-- The values side by side. A container has one number throughout. -/
def prettyAll (values : List Value) : Except Failure (List Char) := do
  let order := values.flatMap fun v => (v.unfold heap).opened
  let texts ← values.mapM (printed heap o order)
  return [' '].intercalate texts

def prettyLine (values : List Value) : Except Failure (List Char) := do
  return (← prettyAll heap o values) ++ ['\n']

def Value.pretty (v : Value) : Except Failure (List Char) :=
  printed heap o (v.unfold heap).opened v

end Stencil

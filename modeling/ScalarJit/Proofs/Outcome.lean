import ScalarJit.Bytes

/-! # How a step ends

Reading a source and generating code are steps that end with a value or with a fault, and leave a
state in both cases. `Ends` says what is known of either end. Each way to put steps together has one
rule, so that a step is followed from its first part to its last. -/

namespace ScalarJit

variable {ε σ α β : Type}

/-- The step ends with a value and a state that meet `ok`, or with a fault and a state that meet
`err`. -/
def Ends (m : EStateM ε σ α) (s : σ) (ok : α → σ → Prop) (err : ε → σ → Prop) : Prop :=
  match m s with
  | .ok a t => ok a t
  | .error e t => err e t

section
variable {m : EStateM ε σ α} {s : σ} {ok : α → σ → Prop} {err : ε → σ → Prop}

theorem ends_of_ok {a : α} {t : σ} (h : m s = .ok a t) : Ends m s ok err ↔ ok a t := by
  rw [Ends, h]

theorem ends_of_error {e : ε} {t : σ} (h : m s = .error e t) : Ends m s ok err ↔ err e t := by
  rw [Ends, h]

theorem ends_iff : Ends m s ok err ↔
    (∀ a t, m s = .ok a t → ok a t) ∧ (∀ e t, m s = .error e t → err e t) := by
  cases hm : m s with
  | ok a t => simp [ends_of_ok hm]
  | error e t => simp [ends_of_error hm]

theorem Ends.mono {ok' : α → σ → Prop} {err' : ε → σ → Prop} (h : Ends m s ok err)
    (hok : ∀ a t, ok a t → ok' a t) (herr : ∀ e t, err e t → err' e t) : Ends m s ok' err' := by
  rw [ends_iff] at h ⊢
  exact ⟨fun a t hm => hok a t (h.1 a t hm), fun e t hm => herr e t (h.2 e t hm)⟩

theorem Ends.and {ok' : α → σ → Prop} {err' : ε → σ → Prop} (h : Ends m s ok err)
    (h' : Ends m s ok' err') :
    Ends m s (fun a t => ok a t ∧ ok' a t) (fun e t => err e t ∧ err' e t) := by
  rw [ends_iff] at h h' ⊢
  exact ⟨fun a t hm => ⟨h.1 a t hm, h'.1 a t hm⟩, fun e t hm => ⟨h.2 e t hm, h'.2 e t hm⟩⟩

end

section
variable {s : σ} {err : ε → σ → Prop}

@[simp]
theorem ends_pure {ok : α → σ → Prop} (a : α) :
    Ends (pure a : EStateM ε σ α) s ok err ↔ ok a s := Iff.rfl

@[simp]
theorem ends_bind {ok : β → σ → Prop} (m : EStateM ε σ α) (f : α → EStateM ε σ β) :
    Ends (m >>= f) s ok err ↔ Ends m s (fun a t => Ends (f a) t ok err) err := by
  cases hm : m s with
  | ok a t =>
    have hb : (m >>= f) s = f a t := by
      show EStateM.bind m f s = f a t
      rw [EStateM.bind, hm]
    rw [ends_of_ok hm, Ends, Ends, hb]
  | error e t =>
    have hb : (m >>= f) s = .error e t := by
      show EStateM.bind m f s = .error e t
      rw [EStateM.bind, hm]
    rw [ends_of_error hm, ends_of_error hb]

@[simp]
theorem ends_map {ok : β → σ → Prop} (f : α → β) (m : EStateM ε σ α) :
    Ends (f <$> m) s ok err ↔ Ends m s (fun a t => ok (f a) t) err := by
  cases hm : m s with
  | ok a t =>
    have hb : (f <$> m) s = .ok (f a) t := by
      show EStateM.map f m s = .ok (f a) t
      rw [EStateM.map, hm]
    rw [ends_of_ok hm, ends_of_ok hb]
  | error e t =>
    have hb : (f <$> m) s = .error e t := by
      show EStateM.map f m s = .error e t
      rw [EStateM.map, hm]
    rw [ends_of_error hm, ends_of_error hb]

@[simp]
theorem ends_throw {ok : α → σ → Prop} (e : ε) :
    Ends (throw e : EStateM ε σ α) s ok err ↔ err e s := Iff.rfl

@[simp]
theorem ends_get {ok : σ → σ → Prop} : Ends (get : EStateM ε σ σ) s ok err ↔ ok s s := Iff.rfl

@[simp]
theorem ends_modify {ok : PUnit → σ → Prop} (f : σ → σ) :
    Ends (modify f : EStateM ε σ PUnit) s ok err ↔ ok ⟨⟩ (f s) := Iff.rfl

@[simp]
theorem ends_modifyGet {ok : α → σ → Prop} (f : σ → α × σ) :
    Ends (modifyGet f : EStateM ε σ α) s ok err ↔ ok (f s).1 (f s).2 := Iff.rfl

/-- One part of a step after another: what the first part is known to leave is all that the second
may use. -/
theorem Ends.bind {ok : β → σ → Prop} {mid : α → σ → Prop} {m : EStateM ε σ α}
    {f : α → EStateM ε σ β} (h : Ends m s mid err)
    (next : ∀ a t, mid a t → Ends (f a) t ok err) : Ends (m >>= f) s ok err :=
  (ends_bind m f).2 (h.mono next fun _ _ he => he)

end

/-! ### Results that are there -/

theorem eq_ok_of_toOption {x : Except ε α} {a : α} (h : x.toOption = some a) : x = .ok a := by
  cases x with
  | error e => cases h
  | ok b =>
    cases h
    rfl

theorem exists_ok_of_any {x : Except ε α} {test : α → Bool} (h : x.toOption.any test = true) :
    ∃ a, x = .ok a ∧ test a = true := by
  obtain ⟨a, ha, htest⟩ := (Option.any_eq_true _ _).1 h
  exact ⟨a, eq_ok_of_toOption ha, htest⟩

end ScalarJit

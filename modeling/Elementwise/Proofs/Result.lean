/-!
# Results in sequence

A computation that may fail and is made of steps succeeds exactly if its steps do. Everything that
is read, compiled or run here is such a computation, so these inversions are used throughout.
-/

namespace Elementwise

variable {ε α β : Type}

/-- A step that succeeds hands its value on. -/
@[simp] theorem ok_bind (a : α) (f : α → Except ε β) : (Except.ok a >>= f) = f a :=
  rfl

/-- A step that fails ends the sequence. -/
@[simp] theorem error_bind (e : ε) (f : α → Except ε β) :
    ((Except.error e : Except ε α) >>= f) = .error e :=
  rfl

/-- A sequence succeeds if its first step does and the others do from there. -/
theorem bind_eq_ok_iff {first : Except ε α} {others : α → Except ε β} {result : β} :
    (first >>= others) = .ok result ↔ ∃ value, first = .ok value ∧ others value = .ok result := by
  rcases first with e | value
  · simp only [error_bind, reduceCtorEq, false_and, exists_false]
  · simp only [ok_bind, Except.ok.injEq, exists_eq_left']

/-- A sequence fails if its first step does, or the others do from where it ends. -/
theorem bind_eq_error_iff {first : Except ε α} {others : α → Except ε β} {e : ε} :
    (first >>= others) = .error e ↔
      first = .error e ∨ ∃ value, first = .ok value ∧ others value = .error e := by
  rcases first with e' | value
  · simp only [error_bind, Except.error.injEq, reduceCtorEq, false_and, exists_false, or_false]
  · simp only [ok_bind, reduceCtorEq, Except.ok.injEq, exists_eq_left', false_or]

/-- A sequence that starts with a check succeeds if the check passes and the others succeed. -/
theorem check_bind_eq_ok_iff {check : Except ε Unit} {others : Unit → Except ε α} {a : α} :
    (check >>= others) = .ok a ↔ check = .ok () ∧ others () = .ok a := by
  rw [bind_eq_ok_iff]
  exact ⟨fun ⟨_, h⟩ => h, fun h => ⟨(), h⟩⟩

/-- A sequence that starts with a check fails if the check does, or if it passes and the others
fail. -/
theorem check_bind_eq_error_iff {check : Except ε Unit} {others : Unit → Except ε α} {e : ε} :
    (check >>= others) = .error e ↔ check = .error e ∨ check = .ok () ∧ others () = .error e := by
  rw [bind_eq_error_iff]
  exact or_congr_right ⟨fun ⟨_, h⟩ => h, fun h => ⟨(), h⟩⟩

/-- What is refused while there are offenders passes exactly if there are none. -/
theorem refuse_eq_ok_iff {γ : Type} {offenders : List γ} {e : ε} {others : Except ε α} {a : α} :
    (if !offenders.isEmpty then .error e else others) = .ok a ↔
      offenders = [] ∧ others = .ok a := by
  rcases offenders with _ | ⟨first, rest⟩
  · exact ⟨fun h => ⟨rfl, h⟩, fun h => h.2⟩
  · exact ⟨nofun, fun h => nomatch h.1⟩

/-- What is refused while there are offenders fails for them, or as what comes after. -/
theorem refuse_eq_error_iff {γ : Type} {offenders : List γ} {e e' : ε} {others : Except ε α} :
    (if !offenders.isEmpty then .error e else others) = .error e' ↔
      offenders ≠ [] ∧ e' = e ∨ offenders = [] ∧ others = .error e' := by
  rcases offenders with _ | ⟨first, rest⟩
  · exact ⟨fun h => .inr ⟨rfl, h⟩, fun h => h.elim (fun h => absurd rfl h.1) fun h => h.2⟩
  · refine ⟨fun h => .inl ⟨nofun, (Except.error.inj h).symm⟩, fun h => h.elim (fun h => ?_) ?_⟩
    · exact congrArg _ h.2.symm
    · exact fun h => nomatch h.1

/-- Renaming errors leaves values. -/
theorem mapError_eq_ok_iff {ε' : Type} {f : ε → ε'} {result : Except ε α} {a : α} :
    result.mapError f = .ok a ↔ result = .ok a := by
  rcases result with e | b
  · exact ⟨nofun, nofun⟩
  · constructor
    · intro h
      exact congrArg Except.ok (Except.ok.inj h)
    · intro h
      exact congrArg Except.ok (Except.ok.inj h)

/-- Steps over a list succeed if each one does, and their results are in the order of the list. -/
theorem mapM_eq_ok {f : α → Except ε β} (g : α → β) (hg : ∀ a b, f a = .ok b → b = g a)
    {list : List α} {results : List β} (h : list.mapM f = .ok results) :
    (∀ a ∈ list, f a = .ok (g a)) ∧ results = list.map g := by
  induction list generalizing results with
  | nil =>
      cases h
      exact ⟨nofun, rfl⟩
  | cons a rest ih =>
      rw [List.mapM_cons] at h
      obtain ⟨b, hb, h⟩ := bind_eq_ok_iff.mp h
      obtain ⟨others, hothers, h⟩ := bind_eq_ok_iff.mp h
      obtain ⟨hrest, rfl⟩ := ih hothers
      cases h
      rw [List.forall_mem_cons, List.map_cons, ← hg a b hb]
      exact ⟨⟨hb, hrest⟩, rfl⟩

/-- Steps over a list that all succeed succeed together. -/
theorem mapM_eq_ok_of_forall {f : α → Except ε β} {g : α → β} {list : List α}
    (h : ∀ a ∈ list, f a = .ok (g a)) : list.mapM f = .ok (list.map g) := by
  induction list with
  | nil => rfl
  | cons a rest ih =>
      obtain ⟨hfirst, hrest⟩ := List.forall_mem_cons.mp h
      rw [List.mapM_cons, hfirst, ok_bind, ih hrest]
      rfl

/-- Steps over a list fail as the first step that fails. -/
theorem mapM_eq_error_iff {f : α → Except ε β} {list : List α} {e : ε} :
    list.mapM f = .error e ↔ ∃ before a after, list = before ++ a :: after ∧
      (∀ b ∈ before, ∃ c, f b = .ok c) ∧ f a = .error e := by
  induction list with
  | nil =>
      refine ⟨nofun, ?_⟩
      rintro ⟨before, a, after, hlist, -⟩
      cases before <;> cases hlist
  | cons a rest ih =>
      rw [List.mapM_cons, bind_eq_error_iff]
      constructor
      · rintro (h | ⟨b, hb, h⟩)
        · exact ⟨[], a, rest, rfl, nofun, h⟩
        · rcases bind_eq_error_iff.mp h with h | ⟨_, -, h⟩
          · obtain ⟨before, c, after, rfl, hbefore, hc⟩ := ih.mp h
            exact ⟨a :: before, c, after, rfl, List.forall_mem_cons.mpr ⟨⟨b, hb⟩, hbefore⟩, hc⟩
          · cases h
      · rintro ⟨before, c, after, hlist, hbefore, hc⟩
        cases before with
        | nil =>
            cases hlist
            exact .inl hc
        | cons d before =>
            cases hlist
            obtain ⟨⟨b, hb⟩, hbefore⟩ := List.forall_mem_cons.mp hbefore
            refine .inr ⟨b, hb, bind_eq_error_iff.mpr (.inl ?_)⟩
            exact ih.mpr ⟨before, c, after, rfl, hbefore, hc⟩

end Elementwise

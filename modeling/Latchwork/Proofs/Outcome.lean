import Mathlib

/-!
# Outcomes

When a computation that may fail succeeds: a chain of steps if each step does, a pass over a list if
it does at every element.
-/

namespace Latchwork.Outcome

variable {ε α β : Type}

/-- A chain succeeds if its first step does, and the rest on what that step gives. -/
theorem bind_eq_ok {x : Except ε α} {f : α → Except ε β} {b : β} :
    x >>= f = .ok b ↔ ∃ a, x = .ok a ∧ f a = .ok b := by
  cases x with
  | error e => simp [bind, Except.bind]
  | ok a => simp [bind, Except.bind]

/-- A mapped computation succeeds if the computation does. -/
theorem map_eq_ok {x : Except ε α} {f : α → β} {b : β} :
    x.map f = .ok b ↔ ∃ a, x = .ok a ∧ f a = b := by
  cases x with
  | error e => simp [Except.map]
  | ok a => simp [Except.map]

/-- A computation succeeds whatever its errors are turned into. -/
theorem mapError_eq_ok {x : Except ε α} {f : ε → β} {a : α} :
    x.mapError f = .ok a ↔ x = .ok a := by
  cases x with
  | error e => simp [Except.mapError]
  | ok b => simp [Except.mapError]

/-- A computation whose errors are turned into others fails if the computation does. -/
theorem mapError_eq_error {x : Except ε α} {f : ε → β} {e : β} :
    x.mapError f = .error e ↔ ∃ cause, x = .error cause ∧ f cause = e := by
  cases x with
  | error cause => simp [Except.mapError]
  | ok b => simp [Except.mapError]

/-- A chain fails if its first step does, or the rest on what that step gives. -/
theorem bind_eq_error {x : Except ε α} {f : α → Except ε β} {e : ε} :
    x >>= f = .error e ↔ x = .error e ∨ ∃ a, x = .ok a ∧ f a = .error e := by
  cases x with
  | error cause => simp [bind, Except.bind]
  | ok a => simp [bind, Except.bind]

/-- A chain whose rest cannot fail fails only if its first step does. -/
theorem eq_error_of_bind {x : Except ε α} {f : α → Except ε β} {e : ε}
    (hf : ∀ a, ∃ b, f a = .ok b) (h : x >>= f = .error e) : x = .error e := by
  rcases bind_eq_error.1 h with h | ⟨a, -, h⟩
  · exact h
  · obtain ⟨b, hb⟩ := hf a
    cases hb.symm.trans h

/-- A check of every element succeeds if it does at each of them. -/
theorem forM_eq_ok {f : α → Except ε PUnit} {xs : List α} :
    xs.forM f = .ok () ↔ ∀ x ∈ xs, f x = .ok () := by
  induction xs with
  | nil => simp [pure, Except.pure]
  | cons x xs ih =>
    change (f x >>= fun _ => xs.forM f) = .ok () ↔ _
    rw [bind_eq_ok]
    constructor
    · rintro ⟨⟨⟩, hx, hxs⟩
      simpa [hx] using ih.1 hxs
    · intro h
      exact ⟨(), h x (.head _), ih.2 fun y hy => h y (.tail _ hy)⟩

/-- A pass over a list succeeds if it does at each element, and gives the results in order. -/
theorem mapM_eq_ok {f : α → Except ε β} {xs : List α} {ys : List β} :
    xs.mapM f = .ok ys ↔ xs.map f = ys.map .ok := by
  induction xs generalizing ys with
  | nil => cases ys <;> simp [pure, Except.pure]
  | cons x xs ih =>
    rw [List.mapM_cons, bind_eq_ok]
    simp only [bind_eq_ok]
    constructor
    · rintro ⟨y, hy, zs, hzs, hpure⟩
      cases hpure
      rw [List.map_cons, List.map_cons, hy, ih.1 hzs]
    · intro h
      rw [List.map_cons] at h
      obtain ⟨y, zs, rfl, hy, hzs⟩ := List.map_eq_cons_iff.1 h.symm
      exact ⟨y, hy.symm, zs, ih.2 hzs.symm, rfl⟩

/-- A check of every element fails with the first element at which it does. -/
theorem forM_eq_error {f : α → Except ε PUnit} {xs : List α} {e : ε} :
    xs.forM f = .error e ↔ ∃ before x after, xs = before ++ x :: after ∧
      (∀ y ∈ before, f y = .ok ()) ∧ f x = .error e := by
  constructor
  · intro h
    induction xs with
    | nil => cases h
    | cons x xs ih =>
      change (f x >>= fun _ => xs.forM f) = .error e at h
      rcases bind_eq_error.1 h with h | ⟨⟨⟩, hx, h⟩
      · exact ⟨[], x, xs, rfl, by simp, h⟩
      · obtain ⟨before, y, after, rfl, hbefore, hy⟩ := ih h
        exact ⟨x :: before, y, after, rfl, by simpa [hx] using hbefore, hy⟩
  · rintro ⟨before, x, after, rfl, hbefore, hx⟩
    induction before with
    | nil => exact bind_eq_error.2 (.inl hx)
    | cons y before ih =>
      have hy : f y = .ok () := hbefore y (.head _)
      have hrest := ih fun z hz => hbefore z (.tail _ hz)
      exact bind_eq_error.2 (.inr ⟨(), hy, hrest⟩)

/-- A pass over a list fails with the first element at which it does. -/
theorem mapM_eq_error {f : α → Except ε β} {xs : List α} {e : ε} (h : xs.mapM f = .error e) :
    ∃ before x after, xs = before ++ x :: after ∧ (∀ y ∈ before, ∃ z, f y = .ok z) ∧
      f x = .error e := by
  induction xs with
  | nil => cases h
  | cons x xs ih =>
    rw [List.mapM_cons] at h
    rcases bind_eq_error.1 h with h | ⟨z, hz, h⟩
    · exact ⟨[], x, xs, rfl, by simp, h⟩
    · have hrest : xs.mapM f = .error e := eq_error_of_bind (fun zs => ⟨z :: zs, rfl⟩) h
      obtain ⟨before, y, after, rfl, hbefore, hy⟩ := ih hrest
      refine ⟨x :: before, y, after, rfl, ?_, hy⟩
      simpa using ⟨⟨z, hz⟩, hbefore⟩

variable {f : α → Except ε β} {xs : List α} {ys : List β}

/-- Each element has its result. -/
theorem exists_result (h : xs.mapM f = .ok ys) {x : α} (hx : x ∈ xs) :
    ∃ y ∈ ys, f x = .ok y := by
  have hmem : f x ∈ ys.map .ok := mapM_eq_ok.1 h ▸ List.mem_map_of_mem hx
  obtain ⟨y, hy, he⟩ := List.mem_map.1 hmem
  exact ⟨y, hy, he.symm⟩

/-- Each result has its element. -/
theorem exists_element (h : xs.mapM f = .ok ys) {y : β} (hy : y ∈ ys) :
    ∃ x ∈ xs, f x = .ok y := by
  have hmem : .ok y ∈ xs.map f := mapM_eq_ok.1 h ▸ List.mem_map_of_mem hy
  exact List.mem_map.1 hmem

/-- A pass over the chosen elements gives the chosen results. -/
theorem mapM_filter {p : α → Bool} {q : β → Bool} (h : xs.mapM f = .ok ys)
    (hpq : ∀ x y, f x = .ok y → p x = q y) : (xs.filter p).mapM f = .ok (ys.filter q) := by
  rw [mapM_eq_ok] at h ⊢
  induction xs generalizing ys with
  | nil =>
    obtain rfl := List.map_eq_nil_iff.1 h.symm
    rfl
  | cons x xs ih =>
    rw [List.map_cons] at h
    obtain ⟨y, zs, rfl, hy, hzs⟩ := List.map_eq_cons_iff.1 h.symm
    have hxy := hpq x y hy.symm
    by_cases hx : p x = true
    · rw [List.filter_cons_of_pos hx, List.filter_cons_of_pos (hxy ▸ hx), List.map_cons,
        List.map_cons, ih hzs.symm, hy]
    · rw [List.filter_cons_of_neg hx, List.filter_cons_of_neg (hxy ▸ hx), ih hzs.symm]

/-- Results that each have an element come from a pass over these. -/
theorem exists_mapM_eq_ok {p : α → Prop} (h : ∀ y ∈ ys, ∃ x, p x ∧ f x = .ok y) :
    ∃ xs : List α, (∀ x ∈ xs, p x) ∧ xs.mapM f = .ok ys := by
  induction ys with
  | nil => exact ⟨[], by simp, rfl⟩
  | cons y ys ih =>
    obtain ⟨x, hx, hy⟩ := h y (.head _)
    obtain ⟨xs, hxs, hys⟩ := ih fun z hz => h z (.tail _ hz)
    refine ⟨x :: xs, by simpa [hx] using hxs, ?_⟩
    rw [mapM_eq_ok] at hys ⊢
    rw [List.map_cons, List.map_cons, hy, hys]

/-- A pass succeeds if it does at each element. -/
theorem exists_mapM_ok (h : ∀ x ∈ xs, ∃ y, f x = .ok y) : ∃ ys, xs.mapM f = .ok ys := by
  induction xs with
  | nil => exact ⟨[], rfl⟩
  | cons x xs ih =>
    obtain ⟨y, hy⟩ := h x (.head _)
    obtain ⟨ys, hys⟩ := ih fun z hz => h z (.tail _ hz)
    rw [mapM_eq_ok] at hys
    exact ⟨y :: ys, mapM_eq_ok.2 (by rw [List.map_cons, List.map_cons, hy, hys])⟩

/-! ### Runs over lists -/

variable {σ : Type}

/-- A run over a list succeeds if each step does, from what the steps before it left: an invariant
of the elements that are done carries the argument. -/
theorem foldlM_ok {step : σ → α → Except ε σ} {xs : List α} {P : List α → σ → Prop} {s : σ}
    (hs : P [] s)
    (hstep : ∀ before x after t, xs = before ++ x :: after → P before t →
      ∃ t', step t x = .ok t' ∧ P (before ++ [x]) t') :
    ∃ t, xs.foldlM step s = .ok t ∧ P xs t := by
  suffices h : ∀ after before t, xs = before ++ after → P before t →
      ∃ t', after.foldlM step t = .ok t' ∧ P xs t' from h xs [] s rfl hs
  intro after
  induction after with
  | nil =>
    intro before t hsplit ht
    refine ⟨t, rfl, ?_⟩
    rwa [hsplit, List.append_nil]
  | cons x after ih =>
    intro before t hsplit ht
    obtain ⟨u, hu, hPu⟩ := hstep before x after t hsplit ht
    obtain ⟨t', ht', hP⟩ := ih (before ++ [x]) u (by rw [hsplit]; simp) hPu
    refine ⟨t', ?_, hP⟩
    rw [List.foldlM_cons]
    exact bind_eq_ok.2 ⟨u, hu, ht'⟩

/-- An invariant of the elements that are done holds after a run that succeeds. -/
theorem foldlM_induct {step : σ → α → Except ε σ} {xs : List α} {P : List α → σ → Prop} {s t : σ}
    (h : xs.foldlM step s = .ok t) (hs : P [] s)
    (hstep : ∀ before x after u v, xs = before ++ x :: after → P before u → step u x = .ok v →
      P (before ++ [x]) v) :
    P xs t := by
  suffices hrun : ∀ after before u, xs = before ++ after → P before u →
      after.foldlM step u = .ok t → P xs t from hrun xs [] s rfl hs h
  intro after
  induction after with
  | nil =>
    intro before u hsplit hu hend
    cases hend
    rwa [hsplit, List.append_nil]
  | cons x after ih =>
    intro before u hsplit hu hrest
    rw [List.foldlM_cons] at hrest
    obtain ⟨v, hv, hrest⟩ := bind_eq_ok.1 hrest
    exact ih (before ++ [x]) v (by simp [hsplit]) (hstep before x after u v hsplit hu hv) hrest

/-- What every step of a run over a list keeps, the run keeps. -/
theorem foldlM_keeps {step : σ → α → Except ε σ} {xs : List α} {P : σ → Prop} {s t : σ}
    (hstep : ∀ s x t, x ∈ xs → P s → step s x = .ok t → P t) (hs : P s)
    (h : xs.foldlM step s = .ok t) : P t := by
  refine foldlM_induct (P := fun _ u => P u) h hs ?_
  intro before x after u v hsplit hu hv
  exact hstep u x v (by simp [hsplit]) hu hv

/-- A run fails if it does at one of the elements, after a run over those before that succeeds. -/
theorem foldlM_eq_error {step : σ → α → Except ε σ} {xs : List α} {s : σ} {e : ε} :
    xs.foldlM step s = .error e ↔ ∃ before x after t, xs = before ++ x :: after ∧
      before.foldlM step s = .ok t ∧ step t x = .error e := by
  constructor
  · intro h
    induction xs generalizing s with
    | nil => cases h
    | cons x xs ih =>
      rw [List.foldlM_cons] at h
      rcases bind_eq_error.1 h with h | ⟨t, ht, h⟩
      · exact ⟨[], x, xs, s, rfl, rfl, h⟩
      · obtain ⟨before, y, after, u, rfl, hbefore, hstep⟩ := ih h
        refine ⟨x :: before, y, after, u, rfl, ?_, hstep⟩
        rw [List.foldlM_cons]
        exact bind_eq_ok.2 ⟨t, ht, hbefore⟩
  · rintro ⟨before, x, after, t, rfl, hbefore, hstep⟩
    rw [List.foldlM_append]
    refine bind_eq_error.2 (.inr ⟨t, hbefore, ?_⟩)
    rw [List.foldlM_cons]
    exact bind_eq_error.2 (.inl hstep)

/-- An invariant of the elements that are done holds after a run that cannot fail. -/
theorem foldl_induct {step : σ → α → σ} {xs : List α} {P : List α → σ → Prop} {s : σ}
    (hs : P [] s)
    (hstep : ∀ before x after t, xs = before ++ x :: after → P before t →
      P (before ++ [x]) (step t x)) :
    P xs (xs.foldl step s) := by
  have hrun : ∃ t, xs.foldlM (fun s x => (.ok (step s x) : Except Empty σ)) s = .ok t ∧ P xs t :=
    foldlM_ok hs fun before x after t hsplit ht => ⟨_, rfl, hstep before x after t hsplit ht⟩
  obtain ⟨t, ht, hP⟩ := hrun
  have hpure : xs.foldlM (fun s x => (.ok (step s x) : Except Empty σ)) s = .ok (xs.foldl step s) :=
    List.foldlM_pure
  rw [hpure] at ht
  cases ht
  exact hP

/-- A run over indexed elements succeeds if each step does; the invariant counts the elements. -/
theorem foldlM_mapIdx_ok {step : σ → β → Except ε σ} {f : Nat → α → β} {xs : List α}
    {P : Nat → σ → Prop} {s : σ} (hs : P 0 s)
    (hstep : ∀ k x t, xs[k]? = some x → P k t → ∃ t', step t (f k x) = .ok t' ∧ P (k + 1) t') :
    ∃ t, (xs.mapIdx f).foldlM step s = .ok t ∧ P xs.length t := by
  have hmap : ∀ before y after t, xs.mapIdx f = before ++ y :: after → P before.length t →
      ∃ t', step t y = .ok t' ∧ P (before ++ [y]).length t' := by
    intro before y after t hsplit ht
    have hy : (xs.mapIdx f)[before.length]? = some y := by simp [hsplit]
    rw [List.getElem?_mapIdx, Option.map_eq_some_iff] at hy
    obtain ⟨x, hx, rfl⟩ := hy
    obtain ⟨t', ht', hP⟩ := hstep before.length x t hx ht
    exact ⟨t', ht', by simpa using hP⟩
  obtain ⟨t, ht, hP⟩ := foldlM_ok (P := fun before t => P before.length t) hs hmap
  exact ⟨t, ht, by simpa using hP⟩

/-- An element of one of several lists, each made from an indexed element. -/
theorem mem_flatten_mapIdx {f : Nat → α → List β} {xs : List α} {y : β} :
    y ∈ (xs.mapIdx f).flatten ↔ ∃ k x, xs[k]? = some x ∧ y ∈ f k x := by
  rw [List.mem_flatten]
  constructor
  · rintro ⟨ys, hys, hy⟩
    obtain ⟨k, hk, rfl⟩ := List.mem_mapIdx.1 hys
    exact ⟨k, _, List.getElem?_eq_getElem hk, hy⟩
  · rintro ⟨k, x, hx, hy⟩
    obtain ⟨hk, rfl⟩ := List.getElem?_eq_some_iff.1 hx
    exact ⟨_, List.mem_mapIdx.2 ⟨k, hk, rfl⟩, hy⟩

/-- A run over one element is one step. -/
theorem foldlM_singleton {step : σ → α → Except ε σ} {x : α} {s : σ} :
    [x].foldlM step s = step s x := by
  rw [List.foldlM_cons]
  cases step s x <;> rfl

/-- A run over joined lists runs over one list after the other. -/
theorem foldlM_flatten {step : σ → α → Except ε σ} {xss : List (List α)} {s : σ} :
    xss.flatten.foldlM step s = xss.foldlM (fun s xs => xs.foldlM step s) s := by
  induction xss generalizing s with
  | nil => rfl
  | cons xs xss ih =>
    rw [List.flatten_cons, List.foldlM_append, List.foldlM_cons]
    exact congrArg _ (funext fun t => ih)

/-- A run over the lists that elements stand for. -/
theorem foldlM_flatMap {step : σ → β → Except ε σ} {f : α → List β} {xs : List α} {s : σ} :
    (xs.flatMap f).foldlM step s = xs.foldlM (fun s x => (f x).foldlM step s) s := by
  rw [List.flatMap, foldlM_flatten, List.foldlM_map]

end Latchwork.Outcome

import Latchwork.Proofs.Loading
import Latchwork.Proofs.TableOrder

/-!
# Building in steps

The calls on a builder, in any order and whether or not they succeed. A call that fails leaves the
netlist as it was. It gives up no reservation but that of the id which it was given. As the search
for a free id never goes back, only the id that was handed out last can be handed out again because
of that.
-/

namespace Latchwork

open Outcome

/-- The natural number that a value equals. -/
def Value.natural? (v : Value) : Option Nat :=
  match v.integer? with
  | some (.ofNat n) => some n
  | _ => none

/-- An index equals the number that it stands for. -/
theorem Value.natural?_of_index? {v : Value} {i : Index} (h : v.index? = some i) :
    v.natural? = some i.value := by
  rw [natural?, integer?_of_index? h]

theorem Value.integer?_of_natural? {v : Value} {k : Nat} (h : v.natural? = some k) :
    v.integer? = some (.ofNat k) := by
  unfold natural? at h
  split at h
  · next hk =>
    cases h
    exact hk
  · cases h

private theorem Value.natural?_of_isKey {v : Value} (h : Netlist.isKey v = false) :
    v.natural? = none := by
  cases v with
  | list _ => rfl
  | object _ => rfl
  | _ => cases h

/-- An instance that a value finds has the number that the value equals. -/
theorem Netlist.natural?_of_lookup? {n : Netlist} {v : Value} {i : Instance}
    (h : n.lookup? v = some i) : i ∈ n.instances ∧ v.natural? = some i.id.value := by
  unfold lookup? at h
  split at h
  · next id hid =>
    refine ⟨mem_instances.2 (List.mem_of_find?_eq_some h), ?_⟩
    rw [Value.natural?, hid, beq_iff_eq.1 (List.find?_some h :)]
  · cases h

/-- Naming an output keeps the table of instances. -/
theorem Netlist.table_nameOutput {n n' : Netlist} {name wire : Value}
    (h : n.nameOutput name wire = .ok n') : n'.table = n.table := by
  unfold nameOutput at h
  split at h
  · split at h
    · split at h
      · cases h
      · obtain ⟨w, -, rfl⟩ := map_eq_ok.1 h
        rfl
    · cases h
  · cases h

theorem Netlist.instances_nameOutput {n n' : Netlist} {name wire : Value}
    (h : n.nameOutput name wire = .ok n') : n'.instances = n.instances :=
  congrArg sorted (table_nameOutput h)

namespace Builder

/-! ### Calls -/

/-- A call on a builder, with its arguments. -/
inductive Call where
  | allocate
  | insert (id : Value) (data : InstanceData)
  | insertWires (id kind params : Value) (inputs : List Value) (outputCount : Value)
  | nameOutput (name wire : Value)

/-- What a call gives back. -/
inductive Reply where
  | id (number : Nat)
  | made (i : Instance)
  | wires (ws : List Wire)
  | named

/-- The number that a call asks for as the id of an instance. -/
def Call.given? : Call → Option Nat
  | .insert id _ => id.natural?
  | .insertWires id _ _ _ _ => id.natural?
  | _ => none

/-- The builder that a call leaves, and its reply unless it fails. -/
def take (b : Builder) : Call → Builder × Except Error Reply
  | .allocate => (b.allocate.2, .ok (.id b.allocate.1))
  | .insert id data => ((b.insert id data).1, (b.insert id data).2.map .made)
  | .insertWires id kind params inputs outputCount =>
    ((b.insertWires id kind params inputs outputCount).1,
      (b.insertWires id kind params inputs outputCount).2.map .wires)
  | .nameOutput name wire =>
    ((b.nameOutput name wire).1, (b.nameOutput name wire).2.map fun _ => .named)

/-- Both ways to add an instance do the same; they differ in what they reply. -/
theorem take_insertWires (b : Builder) (id kind params : Value) (inputs : List Value)
    (outputCount : Value) :
    b.take (.insertWires id kind params inputs outputCount) =
      ((b.insert id ⟨kind, params, .list inputs, outputCount⟩).1,
        (b.insert id ⟨kind, params, .list inputs, outputCount⟩).2.map fun i => .wires i.wires) := by
  simp only [take, insertWires]
  cases (b.insert id ⟨kind, params, .list inputs, outputCount⟩).2 <;> rfl

/-- The builder after a sequence of calls, failed ones included. -/
def after (b : Builder) (calls : List Call) : Builder :=
  calls.foldl (fun b call => (b.take call).1) b

/-! ### One call -/

/-- The reservations without the one that belongs to a number. -/
def kept (b : Builder) (given : Option Nat) : List Nat := b.reserved.filter (given != some ·)

/-- A reserved id belongs to no instance, and the search for free ids has come as far as it. -/
structure IsConsistent (b : Builder) : Prop where
  unplaced : ∀ i ∈ b.netlist.instances, i.id.value ∉ b.reserved
  passed : ∀ k ∈ b.reserved, k ≤ b.cursor

variable {b : Builder}

theorem mem_used {k : Nat} :
    k ∈ b.used ↔ (∃ i ∈ b.netlist.instances, i.id.value = k) ∨ k ∈ b.reserved := by
  simp [used, Netlist.mem_instances]

private theorem mem_kept {given : Option Nat} {k : Nat} :
    k ∈ b.kept given ↔ k ∈ b.reserved ∧ given ≠ some k := by
  simp [kept]

private theorem kept_eq_self {given : Option Nat} (h : ∀ k ∈ b.reserved, given ≠ some k) :
    b.kept given = b.reserved := by
  rw [kept, List.filter_eq_self]
  intro k hk
  simpa using h k hk

private theorem kept_none (b : Builder) : b.kept none = b.reserved := kept_eq_self (by simp)

theorem release_eq (b : Builder) (id : Value) :
    b.release id = { b with reserved := b.kept id.natural? } := by
  unfold release
  split
  · next n hn =>
    have hid : id.natural? = some n := by rw [Value.natural?, hn]
    rw [hid, kept]
    congr
    ext k
    rw [bne, bne, Option.some_beq_some, BEq.comm]
  · next hnone =>
    rw [kept_eq_self]
    intro k _ hk
    unfold Value.natural? at hk
    split at hk
    · next n hn => exact hnone n hn
    · cases hk

/-- What a call can do to a builder, depending on the id that it is given: hand out an id, name an
output, add an instance, or fail. The reservation of a given id is lost if the call adds an instance
and if it fails; other reservations are kept. -/
inductive Effect (b : Builder) : Option Nat → Builder × Except Error Reply → Prop where
  | allocates : Effect b none (b.allocate.2, .ok (.id b.allocate.1))
  | names {netlist : Netlist} {reply : Reply} (h : netlist.instances = b.netlist.instances) :
    Effect b none ({ b with netlist := netlist }, .ok reply)
  | inserts {given : Option Nat} {cursor : Nat} {i : Instance} {reply : Reply}
    (hcursor : b.cursor ≤ cursor) (hfree : b.netlist.hasId i.id.value = false)
    (hkept : i.id.value ∉ b.kept given) (hgiven : ∀ k, given = some k → i.id.value = k) :
    Effect b given (⟨b.netlist.insert i hfree, b.kept given, cursor⟩, .ok reply)
  | fails {given : Option Nat} {cursor : Nat} {e : Error} (hcursor : b.cursor ≤ cursor)
    (hgiven : given.isSome → cursor = b.cursor) :
    Effect b given (⟨b.netlist, b.kept given, cursor⟩, .error e)

/-- An insertion at an id adds the instance, or it fails and keeps the netlist. In both cases only
the reservation of the id is lost. -/
theorem insertAt_cases (hb : ∀ i ∈ b.netlist.instances, i.id.value ∉ b.reserved) (id : Value)
    (data : InstanceData) :
    (∃ e, b.insertAt id data = (⟨b.netlist, b.kept id.natural?, b.cursor⟩, .error e)) ∨
      ∃ i h, id.natural? = some i.id.value ∧ b.insertAt id data =
        (⟨b.netlist.insert i h, b.kept id.natural?, b.cursor⟩, .ok i) := by
  unfold insertAt
  rw [release_eq]
  split
  · next hkey =>
    refine .inl ⟨.unhashableId, ?_⟩
    rw [Value.natural?_of_isKey (by simpa using hkey), kept_none]
  · split
    · next hfound =>
      -- the id of an instance is not reserved, so there is nothing to give up
      obtain ⟨i, hi⟩ := Option.isSome_iff_exists.1 hfound
      obtain ⟨hi, hid⟩ := Netlist.natural?_of_lookup? hi
      refine .inl ⟨.duplicateId id, ?_⟩
      rw [hid, kept_eq_self]
      rintro _ hk ⟨⟩
      exact hb i hi hk
    · dsimp only
      split
      · next e _ => exact .inl ⟨e, rfl⟩
      · next i hmake =>
        unfold Netlist.insert?
        split
        · next netlist hinsert =>
          split at hinsert
          · next hfree =>
            cases hinsert
            have hid := Value.natural?_of_index? (Instance.make_ok hmake).1
            exact .inr ⟨i, hfree, hid, rfl⟩
          · cases hinsert
        · exact .inl ⟨.duplicateId id, rfl⟩

/-- Handing out an id keeps reserved ids apart from those of the instances. -/
theorem IsConsistent.allocate (hb : b.IsConsistent) : b.allocate.2.IsConsistent := by
  have hfresh := b.allocate_not_mem
  rw [mem_used] at hfresh
  constructor
  · intro i hi hmem
    rcases List.mem_cons.1 hmem with hid | hmem
    · exact hfresh (.inl ⟨i, hi, hid⟩)
    · exact hb.unplaced i hi hmem
  · intro k hk
    rcases List.mem_cons.1 hk with rfl | hk
    · exact Nat.le_refl _
    · exact Nat.le_trans (hb.passed k hk) (le_firstFree _ _)

private theorem kept_allocate (b : Builder) : b.allocate.2.kept
    (some b.allocate.1) = b.kept none := by
  have hfresh := b.allocate_not_mem
  rw [mem_used, not_or] at hfresh
  rw [kept_none]
  change (b.allocate.1 :: b.reserved).filter (some b.allocate.1 != some ·) = b.reserved
  rw [List.filter_cons_of_neg (by simp)]
  refine kept_eq_self fun k hk => ?_
  rintro ⟨⟩
  exact hfresh.2 hk

/-- An insertion, whatever becomes of its reply. -/
theorem IsConsistent.effect_insert (hb : b.IsConsistent) (id : Value) (data : InstanceData)
    (reply : Instance → Reply) :
    b.Effect id.natural? ((b.insert id data).1, (b.insert id data).2.map reply) := by
  unfold insert
  split
  · have hmove : b.cursor ≤ b.allocate.1 := le_firstFree _ _
    have hkept : b.allocate.2.kept (Value.int b.allocate.1).natural? = b.kept none :=
      b.kept_allocate
    dsimp only
    rcases insertAt_cases hb.allocate.unplaced (.int b.allocate.1) data with
      ⟨e, he⟩ | ⟨i, h, hid, hi⟩
    · rw [he, hkept]
      exact .fails hmove nofun
    · have hmem : i.id.value ∉ b.kept none := by
        rw [← hkept, mem_kept, hid]
        simp
      rw [hi, hkept]
      exact .inserts hmove h hmem nofun
  · rcases insertAt_cases hb.unplaced id data with ⟨e, he⟩ | ⟨i, h, hid, hi⟩
    · rw [he]
      exact .fails (Nat.le_refl _) fun _ => rfl
    · rw [hi]
      refine .inserts (Nat.le_refl _) h ?_ ?_
      · rw [mem_kept, hid]
        simp
      · intro k hk
        rw [hid] at hk
        exact Option.some.inj hk

/-- Every call on a consistent builder has one of the effects. -/
theorem IsConsistent.effect (hb : b.IsConsistent) (call : Call) :
    b.Effect call.given? (b.take call) := by
  cases call with
  | allocate => exact .allocates
  | insert id data => exact hb.effect_insert id data .made
  | insertWires id kind params inputs outputCount =>
    rw [take_insertWires]
    exact hb.effect_insert id ⟨kind, params, .list inputs, outputCount⟩ fun i => .wires i.wires
  | nameOutput name wire =>
    rw [take, nameOutput]
    cases hnamed : b.netlist.nameOutput name wire with
    | ok netlist => exact .names (Netlist.instances_nameOutput hnamed)
    | error e =>
      have hfails : b.Effect none (⟨b.netlist, b.kept none, b.cursor⟩, .error e) :=
        .fails (Nat.le_refl _) nofun
      rw [kept_none] at hfails
      exact hfails

variable {given : Option Nat} {outcome : Builder × Except Error Reply}

/-- Calls keep a builder consistent. -/
theorem Effect.isConsistent (h : b.Effect given outcome) (hb : b.IsConsistent) :
    outcome.1.IsConsistent := by
  cases h with
  | allocates => exact hb.allocate
  | names h => exact ⟨fun i hi => hb.unplaced i (h ▸ hi), hb.passed⟩
  | @inserts _ cursor i reply hcursor hfree hkept _ =>
    constructor
    · intro j hj
      rcases (Netlist.mem_insert (h := hfree)).1 hj with rfl | hj
      · exact hkept
      · exact fun hmem => hb.unplaced j hj (mem_kept.1 hmem).1
    · exact fun k hk => Nat.le_trans (hb.passed k (mem_kept.1 hk).1) hcursor
  | fails hcursor _ =>
    constructor
    · exact fun i hi hmem => hb.unplaced i hi (mem_kept.1 hmem).1
    · exact fun k hk => Nat.le_trans (hb.passed k (mem_kept.1 hk).1) hcursor

private theorem Effect.cursor_le (h : b.Effect given outcome) : b.cursor ≤ outcome.1.cursor := by
  cases h with
  | allocates => exact le_firstFree _ _
  | names _ => exact Nat.le_refl _
  | inserts hcursor _ _ _ => exact hcursor
  | fails hcursor _ => exact hcursor

/-- An id in use stays in use, unless it is given to a call that fails. -/
theorem Effect.mem_used (h : b.Effect given outcome) {k : Nat} (hk : k ∈ b.used)
    (hgiven : given = some k → outcome.2.isOk = true) : k ∈ outcome.1.used := by
  rw [Builder.mem_used] at hk ⊢
  cases h with
  | allocates => exact hk.imp_right (List.mem_cons_of_mem _)
  | names h =>
    rcases hk with ⟨i, hi, hid⟩ | hk
    · exact .inl ⟨i, h ▸ hi, hid⟩
    · exact .inr hk
  | @inserts _ cursor i reply _ hfree _ hid =>
    have hinsert {j : Instance} := Netlist.mem_insert (j := j) (h := hfree)
    rcases hk with ⟨j, hj, hjd⟩ | hk
    · exact .inl ⟨j, hinsert.2 (.inr hj), hjd⟩
    · by_cases heq : given = some k
      · exact .inl ⟨i, hinsert.2 (.inl rfl), hid k heq⟩
      · exact .inr (mem_kept.2 ⟨hk, heq⟩)
  | fails _ _ =>
    have hne : given ≠ some k := fun heq => Bool.false_ne_true (hgiven heq)
    exact hk.imp_right fun hk => mem_kept.2 ⟨hk, hne⟩

/-- A failed call keeps the netlist and all reservations but that of the given id. -/
theorem Effect.of_error {b' : Builder} {e : Error} (h : b.Effect given (b', .error e)) :
    b'.netlist = b.netlist ∧ b'.reserved = b.kept given ∧
      (given.isSome → b'.cursor = b.cursor) := by
  cases h with
  | fails _ hgiven => exact ⟨rfl, rfl, hgiven⟩

/-! ### Runs -/

/-- An id is withheld if the search has passed it, or if it is in use. -/
def Withheld (b : Builder) (k : Nat) : Prop := k < b.cursor ∨ k ∈ b.used

private theorem Withheld.ne_allocate {k : Nat} (h : b.Withheld k) : b.allocate.1 ≠ k := by
  rcases h with h | h
  · have hle : b.cursor ≤ b.allocate.1 := le_firstFree _ _
    omega
  · intro heq
    exact b.allocate_not_mem (heq ▸ h)

/-- None of the calls that are given an id fails. -/
def Spares (k : Nat) : Builder → List Call → Prop
  | _, [] => True
  | b, call :: calls =>
    (call.given? = some k → (b.take call).2.isOk = true) ∧ Spares k (b.take call).1 calls

theorem isConsistent_ofNetlist (n : Netlist) : (ofNetlist n).IsConsistent :=
  ⟨fun _ _ => List.not_mem_nil, fun _ hk => absurd hk List.not_mem_nil⟩

private theorem IsConsistent.after (hb : b.IsConsistent) (calls : List Call) :
    (b.after calls).IsConsistent := by
  induction calls generalizing b with
  | nil => exact hb
  | cons call calls ih => exact ih ((hb.effect call).isConsistent hb)

private theorem IsConsistent.withheld_after (hb : b.IsConsistent) {k : Nat} {calls : List Call}
    (h : k < b.cursor ∨ k ∈ b.used ∧ b.Spares k calls) : (b.after calls).Withheld k := by
  induction calls generalizing b with
  | nil => exact h.imp_right And.left
  | cons call calls ih =>
    have heffect := hb.effect call
    refine ih (heffect.isConsistent hb) ?_
    rcases h with h | ⟨hk, hspares⟩
    · exact .inl (Nat.lt_of_lt_of_le h heffect.cursor_le)
    · exact .inr ⟨heffect.mem_used hk hspares.1, hspares.2⟩

private theorem allocate_eq_cursor (h : b.cursor ∉ b.used) : b.allocate.1 = b.cursor := by
  change firstFree b.used b.cursor = b.cursor
  rw [firstFree, if_neg h]

/-- A call that fails, at any point of building, changes neither instances nor outputs, and all ids
stay reserved but the one that the call is given. An id that was reserved is not handed out later,
unless it is the last one that was handed out and a call that is given it fails: then the next
allocation hands it out again. -/
theorem take_failed (n : Netlist) (calls : List Call) (call : Call) (b b' : Builder) (e : Error)
    (hb : (ofNetlist n).after calls = b) (h : b.take call = (b', .error e)) :
    b'.netlist = b.netlist ∧
      b'.reserved = b.reserved.filter (call.given? != some ·) ∧
      (∀ k ∈ b.reserved, ∀ later : List Call,
        (k = b.cursor → call.given? ≠ some k ∧ b'.Spares k later) →
          (b'.after later).allocate.1 ≠ k) ∧
      (b.cursor ∈ b.reserved → call.given? = some b.cursor → b'.allocate.1 = b.cursor) := by
  have hconsistent : b.IsConsistent := hb ▸ (isConsistent_ofNetlist n).after calls
  have heffect := hconsistent.effect call
  rw [h] at heffect
  obtain ⟨hnetlist, hkept, hcursor⟩ := heffect.of_error
  refine ⟨hnetlist, hkept, fun k hk later hlater => ?_, fun hreserved hgiven => ?_⟩
  · apply Withheld.ne_allocate
    apply (heffect.isConsistent hconsistent).withheld_after
    rcases Nat.lt_or_eq_of_le (hconsistent.passed k hk) with hpassed | hlast
    · exact .inl (Nat.lt_of_lt_of_le hpassed heffect.cursor_le)
    · obtain ⟨hgiven, hspares⟩ := hlater hlast
      exact .inr ⟨heffect.mem_used (mem_used.2 (.inr hk)) fun heq => absurd heq hgiven, hspares⟩
  · rw [hgiven] at hkept hcursor
    rw [← hcursor rfl]
    apply allocate_eq_cursor
    rw [hcursor rfl, mem_used, hnetlist, hkept, mem_kept]
    rintro (⟨i, hi, hid⟩ | ⟨-, hne⟩)
    · exact hconsistent.unplaced i hi (hid ▸ hreserved)
    · exact hne rfl

/-- Of two reserved ids the first is given to a call that fails. It is not reserved any more, and
yet no allocation hands it out. -/
theorem firstReservation_withheld :
    ∃ b b', (ofNetlist .empty).after [.allocate, .allocate] = b ∧
      b.take (.insert (.int 0) { kind := .int 5 }) = (b', .error (.instanceKind (.int 5))) ∧
      b.reserved = [1, 0] ∧ b'.netlist = b.netlist ∧ b'.reserved = [1] ∧
      ∀ later : List Call, (b'.after later).allocate.1 ≠ 0 := by
  obtain ⟨b, hb, hreserved, hcursor⟩ : ∃ b, (ofNetlist .empty).after [.allocate, .allocate] = b ∧
      b.reserved = [1, 0] ∧ b.cursor = 1 :=
    ⟨_, rfl, by cbv, by cbv⟩
  obtain ⟨b', hfails⟩ : ∃ b', b.take (.insert (.int 0) { kind := .int 5 }) =
      (b', .error (.instanceKind (.int 5))) := by
    subst hb
    exact ⟨_, by cbv⟩
  obtain ⟨hnetlist, hkept, hwithheld, -⟩ := take_failed .empty _ _ b b' _ hb hfails
  refine ⟨b, b', hb, hfails, hreserved, hnetlist, ?_, fun later => ?_⟩
  · rw [hkept, hreserved]
    rfl
  · apply hwithheld 0 (by simp [hreserved]) later
    rw [hcursor]
    nofun

/-- The last id that was reserved is given to a call that fails, and it is handed out again. -/
theorem lastReservation_lost :
    ∃ b b', (ofNetlist .empty).after [.allocate] = b ∧
      b.take (.insert (.int 0) { kind := .int 5 }) = (b', .error (.instanceKind (.int 5))) ∧
      b.reserved = [0] ∧ b'.reserved = [] ∧ b'.allocate.1 = 0 := by
  refine ⟨_, _, rfl, rfl, ?_, ?_, ?_⟩ <;> cbv

end Builder

end Latchwork

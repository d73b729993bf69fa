import Latchwork.Proofs.Building

/-!
# Allocation of ids

An id that the builder chooses is the least one that is free. The search starts at the cursor, which
never goes back although ids are given up and taken below it: in a run of calls that all succeed, an
id that the search has passed stays in use, as a reservation or as the id of an instance. Hence no
id below the cursor is ever free, and none is handed out twice.
-/

namespace Latchwork

open Outcome

/-! ### The search -/

/-- The search for a free id from a number on, as it goes: it passes numbers in use, one after the
other, and ends at the first that is not. -/
inductive Search (used : List Nat) : Nat → Nat → Prop where
  | ends {k : Nat} (h : k ∉ used) : Search used k k
  | passes {k found : Nat} (h : k ∈ used) (rest : Search used (k + 1) found) : Search used k found

private theorem Search.of_passed {used : List Nat} {n k : Nat} (hle : n ≤ k)
    (hpassed : ∀ m, n ≤ m → m < k → m ∈ used) (hfree : k ∉ used) : Search used n k := by
  obtain ⟨rounds, rfl⟩ := Nat.exists_eq_add_of_le hle
  induction rounds generalizing n with
  | zero => exact .ends hfree
  | succ rounds ih =>
    have hnext : n + (rounds + 1) = n + 1 + rounds := by omega
    apply Search.passes (hpassed n (Nat.le_refl n) (by omega))
    rw [hnext] at hpassed hfree ⊢
    apply ih (by omega) _ hfree
    intro m hm hlt
    exact hpassed m (by omega) hlt

private theorem search_firstFree (used : List Nat) (n : Nat) : Search used n
    (firstFree used n) := by
  apply Search.of_passed (le_firstFree used n)
  · intro m hn hlt
    exact mem_of_lt_firstFree hn hlt
  · exact firstFree_not_mem used n

namespace Builder

variable {b : Builder} {call : Call}

/-- An id is free if no instance has it and it is not reserved. -/
def IsFree (b : Builder) (k : Nat) : Prop :=
  (∀ i ∈ b.netlist.instances, i.id.value ≠ k) ∧ k ∉ b.reserved

private theorem isFree_iff {k : Nat} : b.IsFree k ↔ k ∉ b.used := by
  simp [IsFree, mem_used]

/-! ### Ids that are handed out -/

/-- Does a call leave the choice of an id to the builder? -/
def Call.asksForId : Call → Bool
  | .allocate => true
  | .insert .null _ => true
  | .insertWires .null _ _ _ _ => true
  | _ => false

/-- The instance of a netlist that another one does not have. -/
def newcomer? (before after : Netlist) : Option Instance :=
  after.instances.find? fun i => !before.hasId i.id.value

/-- The id that the builder chooses for a call: the one that the call replies with, or that of the
instance which it adds. -/
def handedOut? (b : Builder) (call : Call) : Option Nat :=
  if call.asksForId then
    match (b.take call).2 with
    | .ok (.id k) => some k
    | .ok _ => (newcomer? b.netlist (b.take call).1.netlist).map (·.id.value)
    | .error _ => none
  else none

/-- The ids that calls hand out, in order. -/
def handedOut : Builder → List Call → List Nat
  | _, [] => []
  | b, call :: calls => (b.handedOut? call).toList ++ handedOut (b.take call).1 calls

/-- Do all calls succeed, one after the other? -/
def succeeds : Builder → List Call → Bool
  | _, [] => true
  | b, call :: calls => (b.take call).2.isOk && succeeds (b.take call).1 calls

private theorem newcomer?_insert {n : Netlist} {i : Instance} (h : n.hasId i.id.value = false) :
    newcomer? n (n.insert i h) = some i := by
  cases hfind : newcomer? n (n.insert i h) with
  | none =>
    have hi : i ∈ (n.insert i h).instances := Netlist.mem_insert.2 (.inl rfl)
    have hold := List.find?_eq_none.1 hfind i hi
    simp [h] at hold
  | some j =>
    have hnew := List.find?_some hfind
    rcases Netlist.mem_insert.1 (List.mem_of_find?_eq_some hfind) with rfl | hj
    · rfl
    · have hhas : n.hasId j.id.value = true := Netlist.hasId_eq_true_iff.2 ⟨j, hj, rfl⟩
      simp [hhas] at hnew

private theorem cursor_insertAt (b : Builder) (id : Value) (data : InstanceData) :
    (b.insertAt id data).1.cursor = b.cursor := by
  unfold insertAt
  rw [release_eq]
  split
  · rfl
  · split
    · rfl
    · dsimp only
      split
      · rfl
      · split <;> rfl

private theorem cursor_insert (b : Builder) (id : Value) (data : InstanceData) :
    (b.insert id data).1.cursor =
      if (Call.insert id data).asksForId then b.allocate.1 else b.cursor := by
  cases id with
  | null => exact cursor_insertAt b.allocate.2 _ data
  | _ => exact cursor_insertAt b _ data

private theorem cursor_take (b : Builder) (call : Call) :
    (b.take call).1.cursor = if call.asksForId then b.allocate.1 else b.cursor := by
  cases call with
  | allocate => rfl
  | insert id data => exact cursor_insert b id data
  | insertWires id kind params inputs outputCount =>
    have h := cursor_insert b id ⟨kind, params, .list inputs, outputCount⟩
    cases id <;> exact h
  | nameOutput name wire =>
    change (b.nameOutput name wire).1.cursor = b.cursor
    unfold nameOutput
    split <;> rfl

private theorem IsConsistent.insert_null (hb : b.IsConsistent) {data : InstanceData}
    {reply : Instance → Reply} (hok : ((b.insert .null data).2.map reply).isOk = true) :
    ∃ b' i h, ((b.insert .null data).1, (b.insert .null data).2.map reply) = (b', .ok (reply i)) ∧
      b'.netlist = b.netlist.insert i h ∧ i.id.value = b.allocate.1 := by
  have heq : b.insert .null data = b.allocate.2.insertAt (.int b.allocate.1) data := rfl
  rw [heq] at hok ⊢
  rcases insertAt_cases hb.allocate.unplaced (.int b.allocate.1) data with
    ⟨e, he⟩ | ⟨i, h, hid, hi⟩
  · rw [he] at hok
    cases hok
  · rw [hi]
    exact ⟨_, i, h, rfl, rfl, (Option.some.inj hid).symm⟩

/-- A call that asks for an id and succeeds reserves the first free one, or adds an instance under
it. -/
theorem IsConsistent.take_asksForId (hb : b.IsConsistent) (hasks : call.asksForId = true)
    (hok : (b.take call).2.isOk = true) :
    b.take call = (b.allocate.2, .ok (.id b.allocate.1)) ∨
      ∃ b' i h reply, b.take call = (b', .ok reply) ∧ (∀ k, reply ≠ .id k) ∧
        b'.netlist = b.netlist.insert i h ∧ i.id.value = b.allocate.1 := by
  cases call with
  | allocate => exact .inl rfl
  | nameOutput name wire => cases hasks
  | insert id data =>
    cases id with
    | null =>
      obtain ⟨b', i, h, heq, hnetlist, hid⟩ := hb.insert_null hok
      exact .inr ⟨b', i, h, _, heq, by simp, hnetlist, hid⟩
    | _ => cases hasks
  | insertWires id kind params inputs outputCount =>
    rw [take_insertWires] at hok ⊢
    cases id with
    | null =>
      obtain ⟨b', i, h, heq, hnetlist, hid⟩ := hb.insert_null hok
      exact .inr ⟨b', i, h, _, heq, by simp, hnetlist, hid⟩
    | _ => cases hasks

private theorem IsConsistent.handedOut?_of_asksForId (hb : b.IsConsistent)
    (hasks : call.asksForId = true) (hok : (b.take call).2.isOk = true) :
    b.handedOut? call = some b.allocate.1 ∧ b.allocate.1 ∈ (b.take call).1.used := by
  rw [mem_used, handedOut?, if_pos hasks]
  rcases hb.take_asksForId hasks hok with heq | ⟨b', i, h, reply, heq, hreply, hnetlist, hid⟩
  · rw [heq]
    exact ⟨rfl, .inr (.head _)⟩
  · rw [heq, hnetlist, newcomer?_insert h, ← hid]
    refine ⟨?_, .inl ⟨i, Netlist.mem_insert.2 (.inl rfl), rfl⟩⟩
    cases reply with
    | id k => exact absurd rfl (hreply k)
    | _ => rfl

private theorem asksForId_of_handedOut? {k : Nat} (h : b.handedOut? call = some k) :
    call.asksForId = true := by
  by_contra hasks
  rw [handedOut?, if_neg hasks] at h
  cases h

/-! ### Dense builders -/

/-- A consistent builder whose search has passed no id that is free. -/
structure IsDense (b : Builder) : Prop extends b.IsConsistent where
  dense : ∀ k < b.cursor, k ∈ b.used

private theorem isDense_ofNetlist (n : Netlist) : (ofNetlist n).IsDense where
  toIsConsistent := isConsistent_ofNetlist n
  dense k hk := absurd hk (Nat.not_lt_zero k)

private theorem IsDense.mem_used_of_lt (hb : b.IsDense) {k : Nat} (hk : k < b.allocate.1) :
    k ∈ b.used := by
  by_cases hcursor : k < b.cursor
  · exact hb.dense k hcursor
  · exact mem_of_lt_firstFree (by omega) hk

private theorem IsDense.isLeast_allocate (hb : b.IsDense) : IsLeast
    {k | b.IsFree k} b.allocate.1 := by
  constructor
  · exact isFree_iff.2 b.allocate_not_mem
  · intro k hk
    by_contra hlt
    exact isFree_iff.1 hk (hb.mem_used_of_lt (by omega))

private theorem IsConsistent.mem_used_take (hb : b.IsConsistent) (hok : (b.take call).2.isOk = true)
    {k : Nat} (hk : k ∈ b.used) : k ∈ (b.take call).1.used :=
  (hb.effect call).mem_used hk fun _ => hok

private theorem IsDense.take (hb : b.IsDense) (hok : (b.take call).2.isOk = true) :
    (b.take call).1.IsDense where
  toIsConsistent := (hb.effect call).isConsistent hb.toIsConsistent
  dense k hk := by
    apply hb.mem_used_take hok
    rw [cursor_take] at hk
    by_cases hasks : call.asksForId = true
    · rw [if_pos hasks] at hk
      exact hb.mem_used_of_lt hk
    · rw [if_neg hasks] at hk
      exact hb.dense k hk

/-! ### Runs -/

private theorem succeeds_cons {calls : List Call} :
    b.succeeds (call :: calls) = true ↔
      (b.take call).2.isOk = true ∧ (b.take call).1.succeeds calls = true := by
  rw [succeeds, Bool.and_eq_true]

private theorem IsDense.after (hb : b.IsDense) {calls later : List Call}
    (h : b.succeeds (calls ++ later) = true) :
    (b.after calls).IsDense ∧ (b.after calls).succeeds later = true := by
  induction calls generalizing b with
  | nil => exact ⟨hb, h⟩
  | cons call calls ih =>
    obtain ⟨hok, hrest⟩ := succeeds_cons.1 h
    exact ih (hb.take hok) hrest

private theorem IsDense.not_mem_handedOut (hb : b.IsDense) {calls : List Call}
    (h : b.succeeds calls = true) {k : Nat} (hk : k ∈ b.used) : k ∉ b.handedOut calls := by
  induction calls generalizing b with
  | nil => exact List.not_mem_nil
  | cons call calls ih =>
    obtain ⟨hok, hrest⟩ := succeeds_cons.1 h
    intro hmem
    rcases List.mem_append.1 hmem with hmem | hmem
    · have hnow : b.handedOut? call = some k := Option.mem_toList.1 hmem
      rw [(hb.handedOut?_of_asksForId (asksForId_of_handedOut? hnow) hok).1] at hnow
      exact b.allocate_not_mem (Option.some.inj hnow ▸ hk)
    · exact ih (hb.take hok) hrest (hb.mem_used_take hok hk) hmem

private theorem IsDense.nodup_handedOut (hb : b.IsDense) {calls : List Call}
    (h : b.succeeds calls = true) : (b.handedOut calls).Nodup := by
  induction calls generalizing b with
  | nil => exact List.nodup_nil
  | cons call calls ih =>
    obtain ⟨hok, hrest⟩ := succeeds_cons.1 h
    have hlater := ih (hb.take hok) hrest
    rw [handedOut]
    by_cases hasks : call.asksForId = true
    · obtain ⟨hnow, hused⟩ := hb.handedOut?_of_asksForId hasks hok
      rw [hnow]
      exact List.nodup_cons.2 ⟨(hb.take hok).not_mem_handedOut hrest hused, hlater⟩
    · rw [handedOut?, if_neg hasks]
      exact hlater

/-- In a run of calls that all succeed, every call that leaves the choice of an id to the builder
gets one: the search from the cursor ends there, and it is the least number that is neither the id
of an instance nor reserved at that moment. No id is handed out twice in the whole run. -/
theorem handedOut_isLeast_and_nodup (n : Netlist) (calls : List Call)
    (h : (ofNetlist n).succeeds calls = true) :
    (∀ before call later, calls = before ++ call :: later → ∀ b, (ofNetlist n).after before = b →
      call.asksForId = true → ∃ k, b.handedOut? call = some k ∧ Search b.used b.cursor k ∧
        IsLeast {k | (∀ i ∈ b.netlist.instances, i.id.value ≠ k) ∧ k ∉ b.reserved} k) ∧
      ((ofNetlist n).handedOut calls).Nodup := by
  have hdense := isDense_ofNetlist n
  refine ⟨?_, hdense.nodup_handedOut h⟩
  rintro before call later rfl b rfl hasks
  obtain ⟨hb, hrest⟩ := hdense.after h
  have hok := (succeeds_cons.1 hrest).1
  refine ⟨_, (hb.handedOut?_of_asksForId hasks hok).1, ?_, hb.isLeast_allocate⟩
  exact search_firstFree _ _

/-- Ids that are given below and above those that are chosen, in turn with reservations. -/
def interleaved : List Call :=
  [.insert (.int 1) { kind := .text "high" },
    .allocate,
    .allocate,
    .insertWires .null (.text "low") (.list []) [] (.int 0),
    .insert (.int 0) { kind := .text "low" },
    .nameOutput (.text "done") (.list [.int 1, .int 0]),
    .insert .null { kind := .text "inv", inputs := .list [.list [.int 0, .int 0]] }]

theorem interleaved_handedOut :
    (ofNetlist .empty).succeeds interleaved = true ∧
      (ofNetlist .empty).handedOut interleaved = [0, 2, 3, 4] ∧
      ((ofNetlist .empty).handedOut interleaved).Nodup ∧
      ∃ b, (ofNetlist .empty).after (interleaved.take 2) = b ∧ Search b.used b.cursor 2 ∧
        IsLeast {k | (∀ i ∈ b.netlist.instances, i.id.value ≠ k) ∧ k ∉ b.reserved} 2 := by
  have hsucceeds : (ofNetlist .empty).succeeds interleaved = true := by cbv
  obtain ⟨hleast, hnodup⟩ := handedOut_isLeast_and_nodup .empty interleaved hsucceeds
  refine ⟨hsucceeds, by cbv, hnodup, _, rfl, ?_⟩
  obtain ⟨k, hk, hsearch⟩ :=
    hleast (interleaved.take 2) .allocate (interleaved.drop 3) rfl _ rfl rfl
  have htwo : ((ofNetlist .empty).after (interleaved.take 2)).handedOut? .allocate = some 2 := by
    cbv
  obtain rfl : k = 2 := Option.some.inj (hk.symm.trans htwo)
  exact hsearch

end Builder

end Latchwork

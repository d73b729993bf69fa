import Latchwork.Json.Reader
import Latchwork.Proofs.Outcome

/-!
# What reading a text gives

A text that can be read gives a value in which no object repeats a key. Most texts that cannot be
read have a fault of syntax. Two other reasons are limits: an integer has too many digits, or too
many lists and objects are open at the same time. Both can be seen in the text itself, as a run of
digits and as a number of opening brackets.
-/

namespace Latchwork

open Outcome

/-- A value in which no object repeats a key. -/
inductive Value.Keyed : Value → Prop where
  | null : Keyed .null
  | bool (b : Bool) : Keyed (.bool b)
  | int (z : Int) : Keyed (.int z)
  | real (x : Binary64) : Keyed (.real x)
  | text (s : Text) : Keyed (.text s)
  | list {items : List Value} (h : ∀ v ∈ items, Keyed v) : Keyed (.list items)
  | object {members : List (Text × Value)} (distinct : (members.map Prod.fst).Nodup)
    (h : ∀ m ∈ members, Keyed m.2) : Keyed (.object members)

namespace Json

/-! ### Faulty tokens -/

/-- Is the fault one of syntax? -/
def Fault.isSyntax : Fault → Bool
  | .malformed .. => true
  | _ => false

private theorem isSyntax_of_lowSurrogate? {offset : Nat} {s : List CodePoint} {f : Fault}
    (h : lowSurrogate? offset s = .error f) : f.isSyntax = true := by
  unfold lowSurrogate? at h
  split at h
  · split at h
    · cases h
    · cases h
      rfl
  · cases h

/-- Only a fault of syntax ends a string before its closing quote. -/
theorem isSyntax_of_scanString {start offset : Nat} {s : List CodePoint} {f : Fault}
    (h : scanString start offset s = .error f) : f.isSyntax = true := by
  fun_induction scanString start offset s with
  | case1 | case2 | case5 | case9 =>
    cases h
    rfl
  | case3 offset a b c d next rest code hcode go hhigh ihPair ihSingle =>
    rcases bind_eq_error.1 h with h | ⟨low, -, h⟩
    · exact isSyntax_of_lowSurrogate? h
    · cases low with
      | some low => exact ihPair (eq_error_of_bind (fun _ => ⟨_, rfl⟩) h)
      | none => exact ihSingle (eq_error_of_bind (fun _ => ⟨_, rfl⟩) h)
  | case4 offset a b c d next rest code hcode go hhigh ihPair ihSingle =>
    exact ihSingle (eq_error_of_bind (fun _ => ⟨_, rfl⟩) h)
  | case6 offset p rest hu e he ih => exact ih (eq_error_of_bind (fun _ => ⟨_, rfl⟩) h)
  | case7 =>
    cases h
    split <;> rfl
  | case8 => cases h
  | case10 offset p rest _ _ _ hquote hcontrol ih =>
    exact ih (eq_error_of_bind (fun _ => ⟨_, rfl⟩) h)

/-- A run of so many digits stands in a text. -/
def HasDigits (s : List CodePoint) (count : Nat) : Prop :=
  ∃ digits : List Char, digits.length = count ∧ (∀ c ∈ digits, c.isDigit = true) ∧
    digits.map CodePoint.char <:+: s

private theorem HasDigits.mono {s s' : List CodePoint} {count : Nat} (h : HasDigits s count)
    (hs : s <:+: s') : HasDigits s' count := by
  obtain ⟨digits, hlength, hdigits, hstands⟩ := h
  exact ⟨digits, hlength, hdigits, hstands.trans hs⟩

private theorem numeralChars_isPrefix (s : List CodePoint) :
    (numeralChars s).map CodePoint.char <+: s := by
  fun_induction numeralChars s with
  | case1 c rest _ ih => simpa using ih
  | case2 => exact List.nil_prefix
  | case3 => exact List.nil_prefix

/-- The whole part of a numeral is a run of digits. -/
theorem NumeralParts.whole_of_scan? {s : List Char} {parts : NumeralParts}
    (h : scan? s = some parts) : (∀ c ∈ parts.whole, c.isDigit = true) ∧ parts.whole <:+: s := by
  unfold scan? at h
  extract_lets negative body whole at h
  split at h
  · cases h
  · cases h
    have hbody : body <:+ s := by
      unfold body
      split
      · exact List.drop_suffix 1 s
      · exact List.suffix_refl s
    have hwhole : (∀ c ∈ whole, c.isDigit = true) ∧ whole <+: body := by
      unfold whole
      split
      · next hzero =>
        obtain ⟨rest, hrest⟩ := List.head?_eq_some_iff.1 (beq_iff_eq.1 hzero)
        refine ⟨fun c hc => ?_, ?_⟩
        · rw [List.mem_singleton.1 hc]
          rfl
        · rw [hrest]
          simp
      · exact ⟨fun c hc => List.mem_takeWhile_imp hc, List.takeWhile_prefix _⟩
    exact ⟨hwhole.1, hwhole.2.isInfix.trans hbody.isInfix⟩

/-- What a faulty token of a text stands for: a fault of syntax, or a run of too many digits. -/
inductive TokenFault (s : List CodePoint) : Fault → Prop where
  | malformed (fault : SyntaxFault) (offset : Nat) : TokenFault s (.malformed fault offset)
  | tooManyDigits {count : Nat} (hlimit : Numeral.digitLimit < count) (h : HasDigits s count) :
    TokenFault s (.tooManyDigits count)

private theorem TokenFault.of_isSyntax {s : List CodePoint} {f : Fault} (h : f.isSyntax = true) :
    TokenFault s f := by
  cases f with
  | malformed fault offset => exact .malformed fault offset
  | tooManyDigits count => cases h
  | tooDeep => cases h

private theorem TokenFault.mono {s s' : List CodePoint} {f : Fault} (h : TokenFault s f)
    (hs : s <:+: s') :
    TokenFault s' f := by
  cases h with
  | malformed fault offset => exact .malformed fault offset
  | tooManyDigits hlimit h => exact .tooManyDigits hlimit (h.mono hs)

/-! ### Tokens -/

/-- Does the token open a list or an object? -/
def Token.opens : Token → Bool
  | .openObject => true
  | .openList => true
  | _ => false

/-- Does the token stand for itself and open nothing? -/
def Token.isMark : Token → Bool
  | .closeObject => true
  | .closeList => true
  | .comma => true
  | .colon => true
  | .stray => true
  | _ => false

/-- Does the code point open a list or an object, where it is a token? -/
def isBracket (p : CodePoint) : Bool := p = '\x7b' || p = '['

/-- What the token at the start of a text can be. -/
inductive Scanned (s : List CodePoint) : Token → Prop where
  | scalar {v : Value} (h : v.Keyed) : Scanned s (.scalar v)
  | text (t : Text) : Scanned s (.text t)
  | faulty {f : Fault} (h : TokenFault s f) : Scanned s (.faulty f)
  | opens {token : Token} (h : token.opens = true) (hs : s.head?.any isBracket = true) :
    Scanned s token
  | mark {token : Token} (h : token.isMark = true) : Scanned s token

private theorem keyed_of_mem_constants {c : String × Value} (h : c ∈ constants) : c.2.Keyed := by
  simp only [constants, List.mem_cons, List.not_mem_nil, or_false] at h
  rcases h with rfl | rfl | rfl | rfl | rfl | rfl
  · exact .null
  · exact .bool _
  · exact .bool _
  · exact .real _
  · exact .real _
  · exact .real _

private theorem scanned_numeral {s : List CodePoint} {parts : NumeralParts}
    (h : NumeralParts.scan? (numeralChars s) = some parts) : Scanned s parts.token := by
  obtain ⟨hdigits, hwhole⟩ := NumeralParts.whole_of_scan? h
  unfold NumeralParts.token
  split
  · split
    · next hlimit =>
      refine .faulty (.tooManyDigits hlimit ⟨parts.whole, rfl, hdigits, ?_⟩)
      exact (hwhole.map _).trans (numeralChars_isPrefix s).isInfix
    · exact .scalar (.int _)
  · exact .scalar (.real _)

private theorem scanned (offset : Nat) (s : List CodePoint) : Scanned s (scanToken offset s).1 := by
  unfold scanToken
  split
  · next hfind => exact .scalar (keyed_of_mem_constants (List.mem_of_find?_eq_some hfind))
  · split
    · next hparts => exact scanned_numeral hparts
    · split
      · exact .mark rfl
      · split
        · exact .opens rfl (by simp [isBracket, *])
        · split
          · exact .mark rfl
          · split
            · exact .opens rfl (by simp [isBracket, *])
            · iterate 3
                split
                · exact .mark rfl
              split
              · split
                · exact .text _
                · next hstring => exact .faulty (.of_isSyntax (isSyntax_of_scanString hstring))
              · exact .mark rfl

private theorem scanned_of_mem_tokens {offset : Nat} {s : List CodePoint} {t : Located}
    (ht : t ∈ tokens offset s) : ∃ rest, rest <:+ s ∧ Scanned rest t.token := by
  fun_induction tokens offset s with
  | case1 => cases ht
  | case2 offset p rest hspace ih =>
    obtain ⟨later, hlater, hscanned⟩ := ih ht
    exact ⟨later, hlater.trans (List.suffix_cons p rest), hscanned⟩
  | case3 offset p rest hspace token size hscan ih =>
    rcases List.mem_cons.1 ht with rfl | ht
    · have hscanned := scanned offset (p :: rest)
      rw [hscan] at hscanned
      exact ⟨_, List.suffix_refl _, hscanned⟩
    · obtain ⟨later, hlater, hscanned⟩ := ih ht
      have hrest : rest.drop (size - 1) <:+ p :: rest :=
        (List.drop_suffix _ rest).trans (List.suffix_cons p rest)
      exact ⟨later, hlater.trans hrest, hscanned⟩

private theorem tokenFault_of_mem_tokens {offset : Nat} {s : List CodePoint} {t : Located}
    {f : Fault} (ht : t ∈ tokens offset s) (h : t.token = .faulty f) : TokenFault s f := by
  obtain ⟨rest, hrest, hscanned⟩ := scanned_of_mem_tokens ht
  rw [h] at hscanned
  cases hscanned with
  | faulty hfault => exact hfault.mono hrest.isInfix
  | opens hopens => cases hopens
  | mark hmark => cases hmark

private theorem keyed_of_mem_tokens {offset : Nat} {s : List CodePoint} {t : Located} {v : Value}
    (ht : t ∈ tokens offset s) (h : t.token = .scalar v) : v.Keyed := by
  obtain ⟨rest, -, hscanned⟩ := scanned_of_mem_tokens ht
  rw [h] at hscanned
  cases hscanned with
  | scalar hv => exact hv
  | opens hopens => cases hopens
  | mark hmark => cases hmark

/-- A text has no more opening tokens than brackets. -/
theorem countP_tokens_le (offset : Nat) (s : List CodePoint) :
    (tokens offset s).countP (fun t => t.token.opens) ≤ s.countP isBracket := by
  fun_induction tokens offset s with
  | case1 => simp
  | case2 offset p rest hspace ih =>
    exact Nat.le_trans ih (List.sublist_cons_self p rest).countP_le
  | case3 offset p rest hspace token size hscan ih =>
    rw [List.countP_cons, List.countP_cons]
    have hdrop : (rest.drop (size - 1)).countP isBracket ≤ rest.countP isBracket :=
      (List.drop_sublist _ rest).countP_le
    have hscanned := scanned offset (p :: rest)
    rw [hscan] at hscanned
    by_cases hopens : token.opens = true
    · have hbracket : isBracket p = true := by
        cases hscanned with
        | opens _ hbracket => simpa using hbracket
        | mark hmark => cases token <;> cases hmark <;> cases hopens
        | _ => cases hopens
      rw [if_pos hopens, if_pos hbracket]
      omega
    · rw [if_neg hopens]
      omega

/-! ### Open lists and objects -/

/-- The number of lists and objects that are open in a state. -/
def State.depth : State → Nat
  | .value context => context.depth
  | .listStart outer => outer.depth + 1
  | .listNext _ outer => outer.depth + 1
  | .objectStart outer => outer.depth + 1
  | .objectKey _ outer => outer.depth + 1
  | .objectColon _ _ outer => outer.depth + 1
  | .objectNext _ outer => outer.depth + 1
  | .complete _ => 0

private theorem depth_deliver (v : Value) (context : Context) :
    (context.deliver v).depth = context.depth := by
  cases context <;> rfl

/-- What a step can do from a state with so many lists and objects open: go on with no more of them,
open one more, or fail. -/
inductive StepEffect (depth : Nat) (t : Located) : Except Fault State → Prop where
  | goes {next : State} (h : next.depth ≤ depth) : StepEffect depth t (.ok next)
  | opens {next : State} (ht : t.token.opens = true) (h : next.depth ≤ depth + 1) :
    StepEffect depth t (.ok next)
  | misplaced (fault : SyntaxFault) (offset : Nat) :
    StepEffect depth t (.error (.malformed fault offset))
  | faulty {f : Fault} (ht : t.token = .faulty f) : StepEffect depth t (.error f)
  | tooDeep (ht : t.token.opens = true) (h : nestingLimit ≤ depth) :
    StepEffect depth t (.error .tooDeep)

private theorem stepEffect_enter {context : Context} {t : Located} {state : State}
    (ht : t.token.opens = true) (hstate : state.depth = context.depth + 1) :
    StepEffect context.depth t (context.enter state) := by
  unfold Context.enter
  split
  · exact .opens ht (by omega)
  · exact .tooDeep ht (by omega)

private theorem stepEffect_value (context : Context) (t : Located) :
    StepEffect context.depth t (context.step t) := by
  obtain ⟨offset, token⟩ := t
  cases token with
  | openObject => exact stepEffect_enter rfl rfl
  | openList => exact stepEffect_enter rfl rfl
  | text s => exact .goes (by rw [depth_deliver])
  | scalar v => exact .goes (by rw [depth_deliver])
  | faulty f => exact .faulty rfl
  | _ => exact .misplaced _ _

private theorem stepEffect_key (members : List (Text × Value)) (outer : Context) (t : Located) :
    StepEffect (outer.depth + 1) t (stepKey members outer t) := by
  obtain ⟨offset, token⟩ := t
  cases token with
  | text s => exact .goes (Nat.le_refl _)
  | faulty f =>
    cases f with
    | malformed fault place => exact .misplaced _ _
    | _ => exact .misplaced _ _
  | _ => exact .misplaced _ _

private theorem stepEffect_close (v : Value) (outer : Context) (t : Located) :
    StepEffect (outer.depth + 1) t (.ok (outer.deliver v)) := by
  apply StepEffect.goes
  rw [depth_deliver]
  exact Nat.le_succ _

private theorem stepEffect (state : State) (t : Located) : StepEffect state.depth t
    (state.step t) := by
  unfold State.step
  split
  · exact stepEffect_value _ t
  · exact stepEffect_close _ _ t
  · exact stepEffect_value (.inList [] _) t
  · exact stepEffect_close _ _ t
  · exact .goes (Nat.le_refl _)
  · exact stepEffect_close _ _ t
  · exact stepEffect_key _ _ t
  · exact stepEffect_key _ _ t
  · exact .goes (Nat.le_refl _)
  · exact stepEffect_close _ _ t
  · exact .goes (Nat.le_refl _)
  · exact .misplaced _ _

/-- Why a run can fail: a token is out of place, a token is faulty, or more lists and objects are
opened than may be. -/
inductive RunFailure (depth : Nat) (ts : List Located) : Fault → Prop where
  | misplaced (fault : SyntaxFault) (offset : Nat) : RunFailure depth ts (.malformed fault offset)
  | faulty {t : Located} {f : Fault} (ht : t ∈ ts) (h : t.token = .faulty f) :
    RunFailure depth ts f
  | tooDeep (h : nestingLimit < depth + ts.countP fun t => t.token.opens) :
    RunFailure depth ts .tooDeep

private theorem RunFailure.cons {depth later : Nat} {t : Located} {ts : List Located} {f : Fault}
    (h : RunFailure later ts f) (hlater : later ≤ depth + if t.token.opens then 1 else 0) :
    RunFailure depth (t :: ts) f := by
  cases h with
  | misplaced fault offset => exact .misplaced fault offset
  | faulty ht h => exact .faulty (.tail _ ht) h
  | tooDeep h =>
    refine .tooDeep ?_
    rw [List.countP_cons]
    omega

private theorem runFailure {stop : Nat} {state : State} {ts : List Located} {f : Fault}
    (h : state.run stop ts = .error f) : RunFailure state.depth ts f := by
  induction ts generalizing state with
  | nil =>
    cases state with
    | complete v => cases h
    | _ =>
      cases h
      exact .misplaced _ _
  | cons t ts ih =>
    rw [State.run] at h
    have heffect := stepEffect state t
    cases hstep : state.step t with
    | error e =>
      rw [hstep] at h heffect
      cases h
      cases heffect with
      | misplaced fault offset => exact .misplaced fault offset
      | faulty ht => exact .faulty (.head _) ht
      | tooDeep ht hdepth =>
        refine .tooDeep ?_
        rw [List.countP_cons, if_pos ht]
        omega
    | ok next =>
      rw [hstep] at h heffect
      cases heffect with
      | goes hdepth => exact (ih h).cons (by omega)
      | opens ht hdepth => exact (ih h).cons (by rw [if_pos ht]; exact hdepth)

/-! ### Texts -/

/-- Why a text cannot be read. -/
inductive ReadFailure (t : Text) : ReadError → Prop where
  | malformed (fault : SyntaxFault) (place : Place) : ReadFailure t (.malformed fault place)
  | tooManyDigits {count : Nat} (hlimit : Numeral.digitLimit < count)
    (h : HasDigits t.points count) : ReadFailure t (.tooManyDigits count)
  | tooDeep (h : nestingLimit < t.points.countP isBracket) : ReadFailure t .tooDeep

theorem readFailure {t : Text} {e : ReadError} (h : read t = .error e) : ReadFailure t e := by
  unfold read at h
  obtain ⟨f, hf, rfl⟩ := mapError_eq_error.1 h
  unfold readPoints at hf
  split at hf
  · cases hf
    exact .malformed _ _
  · cases runFailure hf with
    | misplaced fault offset => exact .malformed _ _
    | faulty ht hfaulty =>
      cases tokenFault_of_mem_tokens ht hfaulty with
      | malformed fault offset => exact .malformed _ _
      | tooManyDigits hlimit hdigits => exact .tooManyDigits hlimit hdigits
    | tooDeep hdepth =>
      have hcount := countP_tokens_le 0 t.points
      have hstart : State.depth (.value .top) = 0 := rfl
      exact .tooDeep (by omega)

/-! ### Values -/

private theorem mem_setMember {key : Text} {v : Value} {members : List (Text × Value)}
    {m : Text × Value} (h : m ∈ setMember key v members) : m = (key, v) ∨ m ∈ members := by
  induction members with
  | nil => exact .inl (List.mem_singleton.1 h)
  | cons k members ih =>
    unfold setMember at h
    split at h
    · rcases List.mem_cons.1 h with h | h
      · exact .inl h
      · exact .inr (.tail _ h)
    · rcases List.mem_cons.1 h with rfl | h
      · exact .inr (.head _)
      · rcases ih h with h | h
        · exact .inl h
        · exact .inr (.tail _ h)

private theorem nodup_setMember {key : Text} {v : Value} {members : List (Text × Value)}
    (h : (members.map Prod.fst).Nodup) : ((setMember key v members).map Prod.fst).Nodup := by
  induction members with
  | nil => simp [setMember]
  | cons k members ih =>
    rw [List.map_cons, List.nodup_cons] at h
    unfold setMember
    split
    · next hk =>
      rw [List.map_cons, List.nodup_cons, ← hk]
      exact h
    · next hk =>
      rw [List.map_cons, List.nodup_cons]
      refine ⟨fun hmem => ?_, ih h.2⟩
      obtain ⟨m, hm, hkey⟩ := List.mem_map.1 hmem
      rcases mem_setMember hm with rfl | hm
      · exact hk hkey.symm
      · exact h.1 (hkey ▸ List.mem_map_of_mem hm)

/-- A context in which no object repeats a key. -/
inductive Context.Keyed : Context → Prop where
  | top : Keyed .top
  | inList {items : List Value} {outer : Context} (h : ∀ v ∈ items, v.Keyed)
    (houter : outer.Keyed) : Keyed (.inList items outer)
  | inObject {members : List (Text × Value)} {key : Text} {outer : Context}
    (h : (Value.object members).Keyed) (houter : outer.Keyed) : Keyed (.inObject members key outer)

/-- A state in which no object repeats a key. -/
inductive State.Keyed : State → Prop where
  | value {context : Context} (h : context.Keyed) : Keyed (.value context)
  | listStart {outer : Context} (houter : outer.Keyed) : Keyed (.listStart outer)
  | listNext {items : List Value} {outer : Context} (h : ∀ v ∈ items, v.Keyed)
    (houter : outer.Keyed) : Keyed (.listNext items outer)
  | objectStart {outer : Context} (houter : outer.Keyed) : Keyed (.objectStart outer)
  | objectKey {members : List (Text × Value)} {outer : Context} (h : (Value.object members).Keyed)
    (houter : outer.Keyed) : Keyed (.objectKey members outer)
  | objectColon {members : List (Text × Value)} {key : Text} {outer : Context}
    (h : (Value.object members).Keyed) (houter : outer.Keyed) :
    Keyed (.objectColon members key outer)
  | objectNext {members : List (Text × Value)} {outer : Context} (h : (Value.object members).Keyed)
    (houter : outer.Keyed) : Keyed (.objectNext members outer)
  | complete {v : Value} (h : v.Keyed) : Keyed (.complete v)

private theorem Context.Keyed.deliver {context : Context} {v : Value} (h : context.Keyed)
    (hv : v.Keyed) :
    (context.deliver v).Keyed := by
  cases h with
  | top => exact .complete hv
  | inList hitems houter =>
    refine .listNext (fun w hw => ?_) houter
    rcases List.mem_cons.1 hw with rfl | hw
    · exact hv
    · exact hitems w hw
  | inObject hmembers houter =>
    cases hmembers with
    | object hdistinct hmembers =>
      refine .objectNext (.object (nodup_setMember hdistinct) fun m hm => ?_) houter
      rcases mem_setMember hm with rfl | hm
      · exact hv
      · exact hmembers m hm

private theorem eq_of_enter {context : Context} {state next : State}
    (h : context.enter state = .ok next) : next = state := by
  unfold Context.enter at h
  split at h
  · cases h
    rfl
  · cases h

private theorem Context.Keyed.step {context : Context} {t : Located} {next : State}
    (h : context.Keyed)
    (ht : ∀ v, t.token = .scalar v → v.Keyed) (hstep : context.step t = .ok next) : next.Keyed := by
  obtain ⟨offset, token⟩ := t
  cases token with
  | openObject =>
    obtain rfl := eq_of_enter hstep
    exact .objectStart h
  | openList =>
    obtain rfl := eq_of_enter hstep
    exact .listStart h
  | text s =>
    cases hstep
    exact h.deliver (.text s)
  | scalar v =>
    cases hstep
    exact h.deliver (ht v rfl)
  | _ => cases hstep

private theorem State.Keyed.stepKey {members : List (Text × Value)} {outer : Context} {t : Located}
    {next : State} (h : (Value.object members).Keyed) (houter : outer.Keyed)
    (hstep : stepKey members outer t = .ok next) : next.Keyed := by
  unfold Json.stepKey at hstep
  split at hstep
  · cases hstep
    exact .objectColon h houter
  · cases hstep
  · cases hstep

private theorem keyed_nil : (Value.object []).Keyed := .object List.nodup_nil (by simp)

private theorem State.Keyed.step {state next : State} {t : Located} (h : state.Keyed)
    (ht : ∀ v, t.token = .scalar v → v.Keyed) (hstep : state.step t = .ok next) : next.Keyed := by
  unfold State.step at hstep
  split at hstep
  · cases h with
    | value h => exact h.step ht hstep
  · cases h with
    | listStart houter =>
      cases hstep
      exact houter.deliver (.list (by simp))
  · cases h with
    | listStart houter => exact (Context.Keyed.inList (by simp) houter).step ht hstep
  · cases h with
    | listNext h houter =>
      cases hstep
      exact houter.deliver (.list (by simpa using h))
  · cases h with
    | listNext h houter =>
      cases hstep
      exact .value (.inList h houter)
  · cases h with
    | objectStart houter =>
      cases hstep
      exact houter.deliver keyed_nil
  · cases h with
    | objectStart houter => exact .stepKey keyed_nil houter hstep
  · cases h with
    | objectKey h houter => exact .stepKey h houter hstep
  · cases h with
    | objectColon h houter =>
      cases hstep
      exact .value (.inObject h houter)
  · cases h with
    | objectNext h houter =>
      cases hstep
      exact houter.deliver h
  · cases h with
    | objectNext h houter =>
      cases hstep
      exact .objectKey h houter
  · cases hstep

private theorem State.Keyed.run {stop : Nat} {state : State} {ts : List Located} {v : Value}
    (h : state.Keyed) (hts : ∀ t ∈ ts, ∀ v, t.token = .scalar v → v.Keyed)
    (hrun : state.run stop ts = .ok v) : v.Keyed := by
  induction ts generalizing state with
  | nil =>
    cases h with
    | complete h =>
      cases hrun
      exact h
    | _ => cases hrun
  | cons t ts ih =>
    rw [State.run] at hrun
    obtain ⟨next, hnext, hrun⟩ := bind_eq_ok.1 hrun
    exact ih (h.step (hts t (.head _)) hnext) (fun u hu => hts u (.tail _ hu)) hrun

/-- No object of a value that was read repeats a key: of several members with one key the last one
counts. -/
theorem keyed_of_read {t : Text} {v : Value} (h : read t = .ok v) : v.Keyed := by
  unfold read at h
  have hpoints := mapError_eq_ok.1 h
  unfold readPoints at hpoints
  split at hpoints
  · cases hpoints
  · exact (State.Keyed.value .top).run (fun t ht v hv => keyed_of_mem_tokens ht hv) hpoints

end Json

end Latchwork

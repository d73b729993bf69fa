import Latchwork.FileTree
import Latchwork.Proofs.ReadBack

/-!
# Places

Where the spelling of a path leads in a file tree. A path in plain spelling is read back from its
text, so a file that is opened by that text is the one at the target of the path. A tree only grows:
what is written or made takes no directory and no file away. Directories are made along a path where
nothing is, and below a directory that is there only on the way down from it.
-/

namespace Latchwork

open Outcome

/-! ## Names in bytes -/

namespace Text

/-- The bytes of a character alone. -/
theorem ofString_singleton (c : Char) :
    Bytes.ofString (String.singleton c) = String.utf8EncodeChar c := by
  simp [Bytes.ofString, List.utf8Encode_singleton]

private theorem eq_point_of_head {c : Char} (h : (String.utf8EncodeChar c).head? = some 46) :
    c = '.' := by
  have htoNat : c.toNat = c.val.toNat := rfl
  have hc : c.val.toNat = 46 := by
    unfold String.utf8EncodeChar at h
    simp only at h
    split_ifs at h <;> simp only [List.head?_cons, Option.some.injEq, ← UInt8.toNat_inj] at h <;>
      simp at h <;> omega
  exact Char.ext (UInt32.toNat_inj.1 hc)

/-- The bytes of a name that start with a point are those of a name that does. -/
theorem eq_cons_of_nameBytesFrom {k : Nat} {points : List CodePoint} {rest : Bytes}
    (h : nameBytesFrom k points = .ok (46 :: rest)) :
    ∃ later, points = .char '.' :: later ∧ nameBytesFrom (k + 1) later = .ok rest := by
  cases points with
  | nil => cases h
  | cons p later =>
    cases p with
    | char c =>
      simp only [nameBytesFrom, CodePoint.char?] at h
      obtain ⟨bytes, hbytes, happend⟩ := map_eq_ok.1 h
      rw [ofString_singleton] at happend
      have hc : c = '.' := by
        have hhead := congrArg List.head? happend
        rw [List.head?_append_of_ne_nil _ String.utf8EncodeChar_ne_nil] at hhead
        exact eq_point_of_head hhead
      subst hc
      have hpoint : String.utf8EncodeChar '.' = [46] := by decide
      rw [hpoint] at happend
      exact ⟨later, rfl, by rw [hbytes]; simpa using happend⟩
    | half index =>
      simp only [nameBytesFrom, CodePoint.char?, CodePoint.rawByte?] at h
      split_ifs at h with hi
      · obtain ⟨bytes, -, hcons⟩ := map_eq_ok.1 h
        have hbyte := congrArg UInt8.toNat (List.cons.inj hcons).1
        simp at hbyte
        omega

/-- Only the empty name has no bytes. -/
theorem eq_nil_of_nameBytesFrom {k : Nat} {points : List CodePoint}
    (h : nameBytesFrom k points = .ok []) : points = [] := by
  cases points with
  | nil => rfl
  | cons p later =>
    cases p with
    | char c =>
      simp only [nameBytesFrom, CodePoint.char?] at h
      obtain ⟨bytes, -, happend⟩ := map_eq_ok.1 h
      rw [ofString_singleton] at happend
      exact absurd (List.append_eq_nil_iff.1 happend).1 String.utf8EncodeChar_ne_nil
    | half index =>
      simp only [nameBytesFrom, CodePoint.char?, CodePoint.rawByte?] at h
      split_ifs at h
      · obtain ⟨bytes, -, hcons⟩ := map_eq_ok.1 h
        cases hcons

private theorem eq_ofString_of_string? {b : Bytes} {s : String} (h : b.string? = some s) :
    b = Bytes.ofString s := by
  simp only [Bytes.string?, String.fromUTF8?] at h
  split_ifs at h with hvalid
  cases h
  rfl

/-- A character at the start of bytes takes as many of them as it has. -/
theorem take_of_leadingChar? {b : Bytes} {c : Char} {size : Nat}
    (h : leadingChar? b = some (c, size)) : 0 < size ∧ b.take size = String.utf8EncodeChar c := by
  obtain ⟨tried, hsize, htried⟩ := List.exists_of_findSome?_eq_some h
  split at htried
  next d hd =>
    cases htried
    obtain ⟨s, hs, hlist⟩ := Option.map_eq_some_iff.1 hd
    have hs' : s = String.singleton c := String.toList_inj.1 (by rw [hlist]; simp)
    refine ⟨by simp at hsize; omega, ?_⟩
    rw [← ofString_singleton, ← hs']
    exact eq_ofString_of_string? hs
  next => cases htried

/-- A name that starts with a character is stored with the bytes of that character in front. -/
theorem eq_append_of_pointsOfName {b : Bytes} {c : Char} {rest : List CodePoint}
    (h : pointsOfName b = .char c :: rest) :
    ∃ later, b = String.utf8EncodeChar c ++ later ∧ pointsOfName later = rest := by
  cases b with
  | nil => simp [pointsOfName] at h
  | cons first others =>
    rw [pointsOfName] at h
    split at h
    next d size hlead =>
      obtain ⟨hpos, htake⟩ := take_of_leadingChar? hlead
      obtain ⟨hchar, hrest⟩ := List.cons.inj h
      cases hchar
      obtain ⟨size, rfl⟩ : ∃ n, size = n + 1 := ⟨size - 1, by omega⟩
      refine ⟨others.drop size, ?_, by simpa using hrest⟩
      rw [← htake]
      simp
    next =>
      have hhalf := (List.cons.inj h).1
      have hlt := first.toNat_lt
      rw [CodePoint.ofRawByte, CodePoint.ofValue, dif_pos (by omega)] at hhalf
      cases hhalf

private theorem eq_replicate_of_pointsOfName {n k : Nat} {points : List CodePoint} {b : Bytes}
    (hb : nameBytesFrom k points = .ok b) (h : pointsOfName b = List.replicate n (.char '.')) :
    points = List.replicate n (.char '.') := by
  induction n generalizing k points b with
  | zero =>
    cases b with
    | nil => exact eq_nil_of_nameBytesFrom hb
    | cons first rest =>
      rw [pointsOfName] at h
      split at h <;> cases h
  | succ n ih =>
    obtain ⟨later, rfl, hlater⟩ := eq_append_of_pointsOfName h
    obtain ⟨tail, rfl, htail⟩ := eq_cons_of_nameBytesFrom hb
    rw [ih htail hlater]
    rfl

/-- The step that a step is stored as: the one with the same bytes. -/
def stored (s : Text) : Text := (s.nameBytes.map ofName).toOption.getD s

/-- Can the step be stored in a directory? -/
def IsStorable (s : Text) : Prop := ∃ b, s.nameBytes = .ok b ∧ b.length ≤ FileTree.stepLimit

/-- A step with bytes is stored as what its bytes spell. -/
theorem stored_of_nameBytes {s : Text} {b : Bytes} (h : s.nameBytes = .ok b) :
    s.stored = ofName b := by
  rw [stored, h]
  rfl

private theorem eq_of_stored {s t : Text} {n : Nat} (ht : t.points = List.replicate n (.char '.'))
    (h : s.stored = t) : s = t := by
  cases hb : s.nameBytes with
  | error e => rwa [stored, hb] at h
  | ok b =>
    rw [stored_of_nameBytes hb] at h
    refine ext ((eq_replicate_of_pointsOfName hb ?_).trans ht.symm)
    rw [← ht, ← h]
    rfl

/-- The step that stays in place is stored as itself. -/
@[simp] theorem stored_here : stored Path.here = Path.here := by
  cbv

end Text

/-! ## Plain spelling -/

namespace Path

/-- A step in its plain spelling: it is not empty, it does not stay in place, and it holds no
slash. -/
structure IsStep (s : Text) : Prop where
  ne_nil : s.points ≠ []
  ne_here : s ≠ here
  no_slash : .char '/' ∉ s.points

/-- A step that leads down from a directory. -/
structure IsOrdinary (s : Text) : Prop extends IsStep s where
  ne_up : s ≠ up

/-- A path all of whose steps are in plain spelling. -/
def IsPlain (p : Path) : Prop := ∀ s ∈ p.steps, IsStep s

private theorem of_mem_stepsOf {t s : Text} (h : s ∈ stepsOf t) :
    s.points ≠ [] ∧ .char '/' ∉ s.points := by
  obtain ⟨hs, hne⟩ := List.mem_filter.1 h
  obtain ⟨part, hpart, rfl⟩ := List.mem_map.1 hs
  exact ⟨by simpa [Text.isEmpty] using hne, Text.not_mem_of_mem_splitOn hpart⟩

/-- A text spells a path in plain spelling. -/
theorem isPlain_ofText (t : Text) : (ofText t).IsPlain := by
  intro s hs
  obtain ⟨hmem, hhere⟩ := List.mem_filter.1 hs
  obtain ⟨hne, hslash⟩ := of_mem_stepsOf hmem
  exact ⟨hne, by simpa using hhere, hslash⟩

/-- A path stays plain when plain steps follow. -/
theorem IsPlain.append {p : Path} {steps : List Text} (hp : p.IsPlain)
    (h : ∀ s ∈ steps, IsStep s) : (p.append steps).IsPlain := by
  intro s hs
  rcases List.mem_append.1 hs with hs | hs
  · exact hp s hs
  · exact h s hs

/-- Joined texts are joined lists of code points. -/
theorem points_intercalate (separator : Text) (ts : List Text) :
    (Text.intercalate separator ts).points =
      separator.points.intercalate (ts.map Text.points) := by
  induction ts with
  | nil => rfl
  | cons t rest ih =>
    cases rest with
    | nil => simp [Text.intercalate]
    | cons next rest =>
      simp only [List.map_cons, List.intercalate_cons_cons] at ih ⊢
      simp [Text.intercalate, ih]

/-- How a path with steps is written. -/
theorem points_text {p : Path} (h : p.steps ≠ []) :
    p.text.points = List.replicate p.slashes (.char '/') ++
      [CodePoint.char '/'].intercalate (p.steps.map Text.points) := by
  have hne : ¬(p.slashes = 0 ∧ p.steps.isEmpty) := by simp [h]
  rw [text, if_neg hne, Text.points_append, points_intercalate]
  rfl

private theorem filter_splitOn_replicate (n : Nat) (points : List CodePoint) :
    ((List.replicate n (CodePoint.char '/') ++ points).splitOn (.char '/')).filter (!·.isEmpty) =
      (points.splitOn (.char '/')).filter (!·.isEmpty) := by
  induction n with
  | zero => rfl
  | succ n ih =>
    rw [List.replicate_succ, List.cons_append, ← ih]
    have hsplit := List.splitOn_append_cons_self (a := CodePoint.char '/') []
      (List.replicate n (.char '/') ++ points)
    rw [List.nil_append] at hsplit
    rw [hsplit]
    simp

/-- The steps that a text spells, as lists of code points. -/
theorem stepsOf_eq (t : Text) :
    stepsOf t = ((t.points.splitOn (.char '/')).filter (!·.isEmpty)).map Text.mk := by
  rw [stepsOf, Text.splitOn, List.filter_map]
  rfl

/-- The steps of a path in plain spelling are read back from its text. -/
theorem stepsOf_text {p : Path} (hp : p.IsPlain) (hne : p.steps ≠ []) :
    stepsOf p.text = p.steps := by
  have hsplit : ([CodePoint.char '/'].intercalate (p.steps.map Text.points)).splitOn (.char '/') =
      p.steps.map Text.points := by
    refine List.splitOn_intercalate _ (fun points hpoints => ?_) (by simpa using hne)
    obtain ⟨s, hs, rfl⟩ := List.mem_map.1 hpoints
    exact (hp s hs).no_slash
  have hall : (p.steps.map Text.points).filter (!·.isEmpty) = p.steps.map Text.points := by
    refine List.filter_eq_self.2 fun points hpoints => ?_
    obtain ⟨s, hs, rfl⟩ := List.mem_map.1 hpoints
    simpa using (hp s hs).ne_nil
  rw [stepsOf_eq, points_text hne, filter_splitOn_replicate, hsplit, hall, List.map_map]
  exact List.map_id _

/-- The text of a path in plain spelling leads off from where the path does. -/
theorem origin_ofText_text {p : Path} (hp : p.IsPlain) (hne : p.steps ≠ []) :
    (ofText p.text).origin = p.origin := by
  obtain ⟨s, rest, hsteps⟩ := List.exists_cons_of_ne_nil hne
  have hs := hp s (by simp [hsteps])
  obtain ⟨point, points, hpoint⟩ := List.exists_cons_of_ne_nil hs.ne_nil
  have hslash : point ≠ .char '/' := fun h => hs.no_slash (by simp [hpoint, h])
  have hmore : [CodePoint.char '/'].intercalate (p.steps.map Text.points) =
      point :: [CodePoint.char '/'].intercalate (points :: rest.map Text.points) := by
    simp [hsteps, hpoint]
  have hcount : (p.text.points.takeWhile (· == CodePoint.char '/')).length = p.slashes := by
    rw [points_text hne, hmore, List.takeWhile_append_of_pos (by simp),
      List.takeWhile_cons_of_neg (by simpa using hslash)]
    simp
  have hzero : (if p.slashes = 2 then 2 else min p.slashes 1) = 0 ↔ p.slashes = 0 := by
    split <;> omega
  simp [ofText, origin, hcount, bne, hzero]

/-- The text of a path in plain spelling does not end in a slash. -/
theorem endsWith_text {p : Path} (hp : p.IsPlain) (hne : p.steps ≠ []) :
    p.text.endsWith '/' = false := by
  obtain ⟨before, last, hsteps⟩ := List.eq_nil_or_concat p.steps |>.resolve_left hne
  have hlast := hp last (by simp [hsteps])
  have hend : p.text.points.getLast? = last.points.getLast? := by
    rw [points_text hne, hsteps, List.concat_eq_append, List.map_append, List.map_singleton,
      List.getLast?_append, Text.getLast?_intercalate hlast.ne_nil,
      Option.or_of_isSome (by simpa using hlast.ne_nil)]
  rw [Text.endsWith, hend, beq_eq_false_iff_ne]
  exact fun h => hlast.no_slash (List.mem_of_getLast? h)

end Path

/-! ## Where paths lead -/

namespace Place

/-- The place below another one. -/
def below (p : Place) (steps : List Text) : Place := { p with steps := p.steps ++ steps }

/-- The place that steps lead to, each stored as the file tree does. -/
def follow (p : Place) (steps : List Text) : Place :=
  steps.foldl (fun q s => q.next s.stored) p

@[simp] theorem follow_nil (p : Place) : p.follow [] = p := rfl

@[simp] theorem follow_cons (p : Place) (s : Text) (rest : List Text) :
    p.follow (s :: rest) = (p.next s.stored).follow rest := rfl

@[simp] theorem follow_append (p : Place) (before after : List Text) :
    p.follow (before ++ after) = (p.follow before).follow after :=
  List.foldl_append ..

@[simp] theorem below_nil (p : Place) : p.below [] = p := by simp [below]

@[simp] theorem below_below (p : Place) (before after : List Text) :
    (p.below before).below after = p.below (before ++ after) := by
  simp [below]

/-- Different steps lead to different places below one. -/
@[simp] theorem below_inj {p : Place} {xs ys : List Text} : p.below xs = p.below ys ↔ xs = ys := by
  simp [below]

@[simp] theorem below_eq_self {p : Place} {xs : List Text} : p.below xs = p ↔ xs = [] := by
  rw [← below_inj, below_nil]

private theorem next_stored {s : Text} (h : Path.IsOrdinary s) (p : Place) :
    p.next s.stored = p.below [s.stored] := by
  have hhere : s.stored ≠ Path.here := fun hs => h.ne_here (Text.eq_of_stored (n := 1) rfl hs)
  have hup : s.stored ≠ Path.up := fun hs => h.ne_up (Text.eq_of_stored (n := 2) rfl hs)
  simp [next, below, hhere, hup]

private theorem follow_ordinary {steps : List Text} (h : ∀ s ∈ steps, Path.IsOrdinary s)
    (p : Place) :
    p.follow steps = p.below (steps.map Text.stored) := by
  induction steps generalizing p with
  | nil => simp
  | cons s rest ih =>
    rw [follow_cons, next_stored (h s (.head _)), ih fun s hs => h s (.tail _ hs)]
    simp

end Place

/-- The place that a path leads to, with each step as it is stored. -/
def Path.target (p : Path) : Place := p.origin.follow p.steps

private theorem Path.target_append (p : Path) (steps : List Text) :
    (p.append steps).target = p.target.follow steps :=
  Place.follow_append ..

/-- Ordinary steps below a path lead down from its target. -/
theorem Path.target_append_ordinary {root : Path} {steps : List Text}
    (h : ∀ s ∈ steps, Path.IsOrdinary s) :
    (root.append steps).target = root.target.below (steps.map Text.stored) := by
  rw [target_append, Place.follow_ordinary h]

/-- Stored ordinary steps do not lead up. -/
theorem Path.up_not_mem_stored {steps : List Text} (h : ∀ s ∈ steps, IsOrdinary s) :
    up ∉ steps.map Text.stored := by
  intro hup
  obtain ⟨s, hs, hstored⟩ := List.mem_map.1 hup
  exact (h s hs).ne_up (Text.eq_of_stored (n := 2) rfl hstored)

/-- The path where a path starts. -/
def Path.start (p : Path) : Path := { p with steps := [] }

@[simp] theorem Path.start_append_steps (p : Path) : p.start.append p.steps = p := by
  simp [start, append]

@[simp] theorem Path.append_append (p : Path) (before after : List Text) :
    (p.append before).append after = p.append (before ++ after) := by
  simp [append]

namespace FileTree

/-- No file stands by itself. -/
theorem standing?_ne_file (p : Place) (content : Bytes) : standing? p ≠ some (.file content) := by
  unfold standing?
  split_ifs <;> simp

/-- The working directory and the top directory are there. -/
@[simp] theorem find?_origin (t : FileTree) (p : Path) : t.find? p.origin = some .directory := by
  unfold find? standing? Path.origin
  cases h : p.slashes != 0 <;> simp

/-- A place that holds nothing, or a file, has nothing that stands by itself. -/
theorem standing?_eq_none {t : FileTree} {p : Place} (hdir : t.find? p ≠ some .directory)
    (hdev : t.find? p ≠ some .device) : standing? p = none := by
  cases h : standing? p with
  | none => rfl
  | some entry =>
    have hfind : t.find? p = some entry := by simp [find?, h]
    cases entry with
    | directory => exact absurd hfind hdir
    | device => exact absurd hfind hdev
    | file content => exact absurd h (standing?_ne_file p content)

private theorem standing?_of_empty {t : FileTree} {p : Place} (h : t.find? p = none) :
    standing? p = none :=
  standing?_eq_none (t := t) (by simp [h]) (by simp [h])

/-- A step leads from a directory to the place of the stored step. -/
theorem step_eq_ok {t : FileTree} {p q : Place} {s : Text} :
    t.step p s = .ok q ↔
      t.find? p = some .directory ∧ s.IsStorable ∧ q = p.next s.stored := by
  unfold step
  split
  next hdir =>
    simp only [hdir, true_and, bind_eq_ok]
    constructor
    · rintro ⟨b, hb, hq⟩
      split_ifs at hq with hlimit
      · cases hq
      · cases hq
        exact ⟨⟨b, hb, by omega⟩, by rw [Text.stored_of_nameBytes hb]⟩
    · rintro ⟨⟨b, hb, hlimit⟩, rfl⟩
      exact ⟨b, hb, by rw [if_neg (by omega), Text.stored_of_nameBytes hb]; rfl⟩
  next entry hdir hentry =>
    have hne : t.find? p ≠ some .directory := fun h => hdir (Option.some.inj (hentry.symm.trans h))
    simp [hne]
  next hnone => simp [hnone]

/-- Do steps lead from directory to directory, up to the last one? -/
def Leads (t : FileTree) (p : Place) : List Text → Prop
  | [] => True
  | s :: rest => t.find? p = some .directory ∧ s.IsStorable ∧ t.Leads (p.next s.stored) rest

theorem leads_append {t : FileTree} {p : Place} {before after : List Text} :
    t.Leads p (before ++ after) ↔ t.Leads p before ∧ t.Leads (p.follow before) after := by
  induction before generalizing p with
  | nil => simp [Leads]
  | cons s rest ih => simp [Leads, ih, and_assoc]

/-- A walk succeeds if each step leads off from a directory. -/
theorem walk_eq_ok {t : FileTree} {p q : Place} {steps : List Text} :
    t.walk p steps = .ok q ↔ t.Leads p steps ∧ q = p.follow steps := by
  induction steps generalizing p with
  | nil => simp [walk, pure, Except.pure, Leads, eq_comm]
  | cons s rest ih =>
    have hwalk : t.walk p (s :: rest) = t.step p s >>= fun p => t.walk p rest :=
      List.foldlM_cons ..
    rw [hwalk, bind_eq_ok]
    constructor
    · rintro ⟨a, ha, hrest⟩
      obtain ⟨hdir, hs, rfl⟩ := step_eq_ok.1 ha
      obtain ⟨hleads, rfl⟩ := ih.1 hrest
      exact ⟨⟨hdir, hs, hleads⟩, rfl⟩
    · rintro ⟨⟨hdir, hs, hleads⟩, rfl⟩
      exact ⟨_, step_eq_ok.2 ⟨hdir, hs, rfl⟩, ih.2 ⟨hleads, rfl⟩⟩

/-! ## Reading and writing -/

/-- When a name can be opened for writing: it leads to a place that is no directory, and does not
ask for one. -/
theorem openForWriting_eq_ok {t : FileTree} {name : Text} {q : Place} :
    t.openForWriting name = .ok q ↔
      checkSpelling name = .ok () ∧ name.endsWith '/' = false ∧
        t.locate name (Path.stepsOf name) = .ok q ∧ t.find? q ≠ some .directory := by
  unfold openForWriting
  rw [bind_eq_ok]
  constructor
  · rintro ⟨⟨⟩, hspelling, h⟩
    split_ifs at h with hends
    · obtain ⟨p, -, h⟩ := bind_eq_ok.1 h
      split at h <;> cases h
    · obtain ⟨p, hp, h⟩ := bind_eq_ok.1 h
      split at h
      next => cases h
      next hdir =>
        cases h
        exact ⟨hspelling, by simpa using hends, hp, hdir⟩
  · rintro ⟨hspelling, hends, hq, hdir⟩
    refine ⟨(), hspelling, ?_⟩
    rw [if_neg (by simp [hends])]
    refine bind_eq_ok.2 ⟨q, hq, ?_⟩
    split
    next h => exact absurd h hdir
    next => rfl

/-- When a name can be read: it leads to a file, or to a device. -/
theorem read_eq_ok {t : FileTree} {name : Text} {content : Bytes} :
    t.read name = .ok content ↔
      checkSpelling name = .ok () ∧ name.endsWith '/' = false ∧
        ∃ q, t.locate name (Path.stepsOf name) = .ok q ∧
          (t.find? q = some (.file content) ∨ t.find? q = some .device ∧ content = []) := by
  unfold read
  rw [bind_eq_ok]
  constructor
  · rintro ⟨⟨⟩, hspelling, h⟩
    obtain ⟨q, hq, h⟩ := bind_eq_ok.1 h
    split at h
    next => cases h
    next hfile =>
      split_ifs at h with hends
      cases h
      exact ⟨hspelling, by simpa using hends, q, hq, .inl hfile⟩
    next hdevice =>
      split_ifs at h with hends
      cases h
      exact ⟨hspelling, by simpa using hends, q, hq, .inr ⟨hdevice, rfl⟩⟩
    next => cases h
  · rintro ⟨hspelling, hends, q, hq, hentry⟩
    refine ⟨(), hspelling, bind_eq_ok.2 ⟨q, hq, ?_⟩⟩
    rcases hentry with hfile | ⟨hdevice, rfl⟩
    · simp [hfile, hends, pure, Except.pure]
    · simp [hdevice, hends, pure, Except.pure]

/-- The text of a path without steps leads to where the path starts. -/
theorem locate_text_of_nil {t : FileTree} {p : Path} (h : p.steps = []) :
    t.locate p.text (Path.stepsOf p.text) = .ok (Path.ofText p.text).origin := by
  obtain ⟨slashes, steps⟩ := p
  subst h
  rw [locate, walk_eq_ok]
  cases slashes with
  | zero =>
    have hsteps : Path.stepsOf (Path.text ⟨0, []⟩) = [Path.here] := by decide
    rw [hsteps]
    refine ⟨⟨find?_origin .., ⟨[46], by rfl, by decide⟩, trivial⟩, ?_⟩
    simp [Place.next]
  | succ n =>
    have hsteps : Path.stepsOf (Path.text ⟨n + 1, []⟩) = [] := by
      have hpoints : (Path.text ⟨n + 1, []⟩).points =
          List.replicate (n + 1) (CodePoint.char '/') ++ [] := rfl
      rw [Path.stepsOf_eq, hpoints, Path.filter_splitOn_replicate]
      rfl
    rw [hsteps]
    exact ⟨trivial, rfl⟩

private theorem locate_text {t : FileTree} {p : Path} {q : Place} (hp : p.IsPlain)
    (hne : p.steps ≠ []) :
    t.locate p.text (Path.stepsOf p.text) = .ok q ↔
      t.Leads p.origin p.steps ∧ q = p.target := by
  rw [locate, Path.origin_ofText_text hp hne, Path.stepsOf_text hp hne, walk_eq_ok]
  rfl

/-- When a path in plain spelling can be opened for writing. -/
theorem openForWriting_text {t : FileTree} {p : Path} {q : Place} (hp : p.IsPlain) :
    t.openForWriting p.text = .ok q ↔
      p.steps ≠ [] ∧ checkSpelling p.text = .ok () ∧ t.Leads p.origin p.steps ∧
        q = p.target ∧ t.find? p.target ≠ some .directory := by
  rw [openForWriting_eq_ok]
  by_cases hne : p.steps = []
  · rw [locate_text_of_nil hne]
    constructor
    · rintro ⟨-, -, hq, hdir⟩
      cases hq
      exact absurd (find?_origin ..) hdir
    · rintro ⟨h, -⟩
      exact absurd hne h
  · rw [locate_text hp hne, Path.endsWith_text hp hne]
    constructor
    · rintro ⟨hspelling, -, ⟨hleads, rfl⟩, hdir⟩
      exact ⟨hne, hspelling, hleads, rfl, hdir⟩
    · rintro ⟨-, hspelling, hleads, rfl, hdir⟩
      exact ⟨hspelling, rfl, ⟨hleads, rfl⟩, hdir⟩

/-- When a path in plain spelling can be read. -/
theorem read_text {t : FileTree} {p : Path} {content : Bytes} (hp : p.IsPlain) :
    t.read p.text = .ok content ↔
      p.steps ≠ [] ∧ checkSpelling p.text = .ok () ∧ t.Leads p.origin p.steps ∧
        (t.find? p.target = some (.file content) ∨
          t.find? p.target = some .device ∧ content = []) := by
  rw [read_eq_ok]
  by_cases hne : p.steps = []
  · rw [locate_text_of_nil hne]
    constructor
    · rintro ⟨-, -, q, hq, hentry⟩
      cases hq
      simp at hentry
    · rintro ⟨h, -⟩
      exact absurd hne h
  · simp only [locate_text hp hne, Path.endsWith_text hp hne]
    constructor
    · rintro ⟨hspelling, -, q, ⟨hleads, rfl⟩, hentry⟩
      exact ⟨hne, hspelling, hleads, hentry⟩
    · rintro ⟨-, hspelling, hleads, hentry⟩
      exact ⟨hspelling, trivial, _, ⟨hleads, rfl⟩, hentry⟩

/-- What writing to a name does: a device forgets it, any other place holds it. -/
theorem write_eq_ok {t u : FileTree} {name : Text} {content : Bytes} :
    t.write name content = .ok u ↔
      ∃ q, t.openForWriting name = .ok q ∧
        (t.find? q = some .device ∧ u = t ∨
          t.find? q ≠ some .device ∧ u = t.set q (.file content)) := by
  unfold write
  rw [bind_eq_ok]
  refine exists_congr fun q => and_congr_right fun _ => ?_
  split
  next h => simp [h, pure, Except.pure, eq_comm]
  next h =>
    have hdev : t.find? q ≠ some .device := h
    simp [hdev, pure, Except.pure, eq_comm]

/-- What a place without a standing entry holds once an entry is put somewhere. -/
theorem find?_set {t : FileTree} {p q : Place} {entry : Entry} (h : standing? p = none) :
    (t.set p entry).find? q = if q = p then some entry else t.find? q := by
  split_ifs with hq
  · rw [hq, find?_set_self h]
  · exact find?_set_of_ne hq

/-- Do the directories of one tree stay directories in another, and its files stay files? -/
structure Grows (t u : FileTree) : Prop where
  directory {q : Place} : t.find? q = some .directory → u.find? q = some .directory
  file {q : Place} {content : Bytes} :
    t.find? q = some (.file content) → ∃ content', u.find? q = some (.file content')

theorem Grows.refl (t : FileTree) : t.Grows t := ⟨id, fun h => ⟨_, h⟩⟩

theorem Grows.trans {t u v : FileTree} (h : t.Grows u) (h' : u.Grows v) : t.Grows v where
  directory hq := h'.directory (h.directory hq)
  file hq := h'.file (h.file hq).choose_spec

private theorem grows_set_directory {t : FileTree} {p : Place} (h : t.find? p = none) :
    t.Grows (t.set p .directory) := by
  have hstanding : standing? p = none := standing?_of_empty h
  constructor
  · intro q hq
    rw [find?_set hstanding]
    split_ifs <;> simp [hq]
  · intro q content hq
    rw [find?_set hstanding, if_neg (by rintro rfl; simp [h] at hq)]
    exact ⟨content, hq⟩

/-- A file in a place that is no directory takes no directory away. -/
theorem grows_set_file {t : FileTree} {p : Place} {content : Bytes}
    (hdir : t.find? p ≠ some .directory) (hdev : t.find? p ≠ some .device) :
    t.Grows (t.set p (.file content)) := by
  have hstanding : standing? p = none := standing?_eq_none hdir hdev
  constructor
  · intro q hq
    rw [find?_set hstanding, if_neg (by rintro rfl; exact hdir hq), hq]
  · intro q old hq
    rw [find?_set hstanding]
    split_ifs
    · exact ⟨content, rfl⟩
    · exact ⟨old, hq⟩

/-- Writing takes no directory and no file away. -/
theorem grows_write {t u : FileTree} {name : Text} {content : Bytes}
    (h : t.write name content = .ok u) : t.Grows u := by
  obtain ⟨q, hopen, ⟨-, rfl⟩ | ⟨hdev, rfl⟩⟩ := write_eq_ok.1 h
  · exact .refl _
  · exact grows_set_file (openForWriting_eq_ok.1 hopen).2.2.2 hdev

/-- Steps that lead somewhere still do as a tree grows. -/
theorem Leads.mono {t u : FileTree} (h : t.Grows u) {p : Place} {steps : List Text}
    (hl : t.Leads p steps) : u.Leads p steps := by
  induction steps generalizing p with
  | nil => trivial
  | cons s rest ih => exact ⟨h.directory hl.1, hl.2.1, ih hl.2.2⟩

/-- Steps that lead to a directory lead off from one. -/
theorem Leads.directory {t : FileTree} {p : Place} {steps : List Text} (hl : t.Leads p steps)
    (hd : t.find? (p.follow steps) = some .directory) : t.find? p = some .directory := by
  cases steps with
  | nil => exact hd
  | cons s rest => exact hl.1

/-! ## Making directories -/

/-- Are all paths on the way from a path, step after step, spelled within the limits? -/
def Spelled (path : Path) : List Text → Prop
  | [] => True
  | s :: rest => checkSpelling (path.append [s]).text = .ok () ∧ Spelled (path.append [s]) rest

/-- The paths of the directories that are made along the steps of a path, in order. -/
def madeSteps (t : FileTree) (path : Path) (p : Place) : List Text → List Path
  | [] => []
  | step :: rest =>
    let path := path.append [step]
    match (checkSpelling path.text).bind fun _ => t.step p step with
    | .error _ => []
    | .ok p =>
      match t.find? p with
      | some .directory => t.madeSteps path p rest
      | some _ => if rest.isEmpty then [] else t.madeSteps path p rest
      | none => path :: (t.set p .directory).madeSteps path p rest

/-- The paths of the directories that are made with a directory and those above it, in order. -/
def made (t : FileTree) (path : Path) : List Path :=
  if makingLimit < t.missing path.origin path.steps then []
  else t.madeSteps path.start path.start.target path.steps

/-- Puts a directory where a path leads. -/
def addDirectory (t : FileTree) (path : Path) : FileTree := t.set path.target .directory

private theorem makeSteps_present {t : FileTree} {path : Path} {s : Text} (rest : List Text)
    (hspelling : checkSpelling (path.append [s]).text = .ok ())
    (hdir : t.find? path.target = some .directory) (hs : s.IsStorable)
    (hnext : t.find? (path.append [s]).target = some .directory) :
    t.makeSteps path path.target (s :: rest) =
        t.makeSteps (path.append [s]) (path.append [s]).target rest ∧
      t.madeSteps path path.target (s :: rest) =
        t.madeSteps (path.append [s]) (path.append [s]).target rest := by
  have hstep : t.step path.target s = .ok (path.append [s]).target :=
    step_eq_ok.2 ⟨hdir, hs, path.target_append [s]⟩
  simp [makeSteps, madeSteps, hspelling, hstep, Except.bind, hnext]

private theorem makeSteps_new {t : FileTree} {path : Path} {s : Text} (rest : List Text)
    (hspelling : checkSpelling (path.append [s]).text = .ok ())
    (hdir : t.find? path.target = some .directory) (hs : s.IsStorable)
    (hnext : t.find? (path.append [s]).target = none) :
    t.makeSteps path path.target (s :: rest) =
        (t.addDirectory (path.append [s])).makeSteps (path.append [s]) (path.append [s]).target
          rest ∧
      t.madeSteps path path.target (s :: rest) =
        path.append [s] ::
          (t.addDirectory (path.append [s])).madeSteps (path.append [s]) (path.append [s]).target
            rest := by
  have hstep : t.step path.target s = .ok (path.append [s]).target :=
    step_eq_ok.2 ⟨hdir, hs, path.target_append [s]⟩
  simp [makeSteps, madeSteps, hspelling, hstep, Except.bind, hnext, addDirectory]

private theorem makeSteps_blocked {t : FileTree} {path : Path} (s : Text) (rest : List Text)
    (hdir : t.find? path.target ≠ some .directory) :
    ∃ e, t.makeSteps path path.target (s :: rest) = (t, .error e) ∧
      t.madeSteps path path.target (s :: rest) = [] := by
  have herror : ∃ e, ((checkSpelling (path.append [s]).text).bind fun _ =>
      t.step path.target s) = .error e := by
    cases h : (checkSpelling (path.append [s]).text).bind fun _ => t.step path.target s with
    | error e => exact ⟨e, rfl⟩
    | ok p =>
      obtain ⟨⟨⟩, -, hstep⟩ := bind_eq_ok.1 h
      exact absurd (step_eq_ok.1 hstep).1 hdir
  obtain ⟨e, he⟩ := herror
  exact ⟨e, by simp [makeSteps, he], by simp [madeSteps, he]⟩

private theorem makeSteps_occupied {t : FileTree} {path : Path} {s : Text} {entry : Entry}
    (rest : List Text) (hstep : ((checkSpelling (path.append [s]).text).bind fun _ =>
      t.step path.target s) = .ok (path.append [s]).target)
    (hnext : t.find? (path.append [s]).target = some entry) (hentry : entry ≠ .directory) :
    ∃ e, t.makeSteps path path.target (s :: rest) = (t, .error e) ∧
      t.madeSteps path path.target (s :: rest) = [] := by
  cases rest with
  | nil => cases entry <;> simp_all [makeSteps, madeSteps]
  | cons next rest =>
    have hdir : t.find? (path.append [s]).target ≠ some .directory := by simp [hnext, hentry]
    have hblocked := makeSteps_blocked next rest hdir
    rw [makeSteps, madeSteps]
    cases entry <;> simp_all

/-- What making directories along steps does: it stops, or goes on from a directory that is there
or that it makes. -/
inductive Making : FileTree → Path → List Text → List Path → FileTree × Except Error Unit → Prop
  | done {t : FileTree} {path : Path} : Making t path [] [] (t, .ok ())
  | refused {t : FileTree} {path : Path} {s : Text} {rest : List Text} {e : Error} :
    Making t path (s :: rest) [] (t, .error e)
  | present {t : FileTree} {path : Path} {s : Text} {rest : List Text} {made : List Path}
    {r : FileTree × Except Error Unit}
    (hspelling : checkSpelling (path.append [s]).text = .ok ()) (hs : s.IsStorable)
    (hdir : t.find? path.target = some .directory)
    (hnext : t.find? (path.append [s]).target = some .directory)
    (hrest : Making t (path.append [s]) rest made r) : Making t path (s :: rest) made r
  | new {t : FileTree} {path : Path} {s : Text} {rest : List Text} {made : List Path}
    {r : FileTree × Except Error Unit}
    (hspelling : checkSpelling (path.append [s]).text = .ok ()) (hs : s.IsStorable)
    (hdir : t.find? path.target = some .directory)
    (hnext : t.find? (path.append [s]).target = none)
    (hrest : Making (t.addDirectory (path.append [s])) (path.append [s]) rest made r) :
    Making t path (s :: rest) (path.append [s] :: made) r

private theorem making (t : FileTree) (path : Path) (steps : List Text) :
    Making t path steps (t.madeSteps path path.target steps)
      (t.makeSteps path path.target steps) := by
  induction steps generalizing t path with
  | nil => exact .done
  | cons s rest ih =>
    cases h : (checkSpelling (path.append [s]).text).bind fun _ => t.step path.target s with
    | error e =>
      have hmake : t.makeSteps path path.target (s :: rest) = (t, .error e) := by
        simp [makeSteps, h]
      have hmade : t.madeSteps path path.target (s :: rest) = [] := by simp [madeSteps, h]
      rw [hmake, hmade]
      exact .refused
    | ok p =>
      obtain ⟨⟨⟩, hspelling, hstep⟩ := bind_eq_ok.1 h
      obtain ⟨hdir, hs, rfl⟩ := step_eq_ok.1 hstep
      have htarget : path.target.next s.stored = (path.append [s]).target :=
        (path.target_append [s]).symm
      rw [htarget] at h
      cases hnext : t.find? (path.append [s]).target with
      | none =>
        obtain ⟨hmake, hmade⟩ := makeSteps_new rest hspelling hdir hs hnext
        rw [hmake, hmade]
        exact .new hspelling hs hdir hnext (ih ..)
      | some entry =>
        by_cases hentry : entry = .directory
        · subst hentry
          obtain ⟨hmake, hmade⟩ := makeSteps_present rest hspelling hdir hs hnext
          rw [hmake, hmade]
          exact .present hspelling hs hdir hnext (ih ..)
        · obtain ⟨e, hmake, hmade⟩ := makeSteps_occupied rest h hnext hentry
          rw [hmake, hmade]
          exact .refused

namespace Making

variable {t : FileTree} {path : Path} {steps : List Text} {made : List Path}
  {r : FileTree × Except Error Unit}

private theorem fst_eq (h : Making t path steps made r) : r.1 = made.foldl addDirectory t := by
  induction h with
  | done => rfl
  | refused => rfl
  | present _ _ _ _ _ ih => exact ih
  | new _ _ _ _ _ ih => exact ih

private theorem grows (h : Making t path steps made r) : t.Grows r.1 := by
  induction h with
  | done => exact .refl _
  | refused => exact .refl _
  | present _ _ _ _ _ ih => exact ih
  | new _ _ _ hnext _ ih => exact (grows_set_directory hnext).trans ih

/-- Once the directories are made, the steps lead to the last of them. -/
theorem leads (h : Making t path steps made r) (hok : r.2 = .ok ())
    (hdir : t.find? path.target = some .directory) :
    Spelled path steps ∧ r.1.Leads path.target steps ∧
      r.1.find? (path.append steps).target = some .directory := by
  induction h with
  | done => exact ⟨trivial, trivial, by simpa [Path.append] using hdir⟩
  | refused => cases hok
  | present hspelling hs _ hnext hrest ih =>
    obtain ⟨hspelled, hleads, hlast⟩ := ih hok hnext
    rw [Path.target_append] at hleads
    exact ⟨⟨hspelling, hspelled⟩, ⟨hrest.grows.directory hdir, hs, hleads⟩,
      by rwa [Path.append_append] at hlast⟩
  | new hspelling hs _ hnext hrest ih =>
    have hgrows := (grows_set_directory hnext).trans hrest.grows
    obtain ⟨hspelled, hleads, hlast⟩ := ih hok (find?_set_self (standing?_of_empty hnext))
    rw [Path.target_append] at hleads
    exact ⟨⟨hspelling, hspelled⟩, ⟨hgrows.directory hdir, hs, hleads⟩,
      by rwa [Path.append_append] at hlast⟩

/-- A directory is made on the way, where nothing was. -/
theorem of_mem (h : Making t path steps made r) {q : Path} (hq : q ∈ made) :
    (∃ before, before ≠ [] ∧ before <+: steps ∧ q = path.append before) ∧
      t.find? q.target = none := by
  induction h with
  | done => cases hq
  | refused => cases hq
  | @present _ _ s _ _ _ _ _ _ _ _ ih =>
    obtain ⟨⟨before, -, hinit, rfl⟩, hnone⟩ := ih hq
    exact ⟨⟨s :: before, by simp, by simpa using hinit, by simp⟩, hnone⟩
  | @new _ _ s _ _ _ _ _ _ hnext _ ih =>
    rcases List.mem_cons.1 hq with rfl | hq
    · exact ⟨⟨[s], by simp, by simp, rfl⟩, hnext⟩
    · obtain ⟨⟨before, -, hinit, rfl⟩, hnone⟩ := ih hq
      refine ⟨⟨s :: before, by simp, by simpa using hinit, by simp⟩, ?_⟩
      rw [addDirectory, find?_set (standing?_of_empty hnext)] at hnone
      split_ifs at hnone
      exact hnone

end Making

/-- Steps to directories that are there are passed, and the directories are made after them. -/
theorem makeSteps_append {t : FileTree} {path : Path} {before : List Text} (after : List Text)
    (hspelled : Spelled path before) (hleads : t.Leads path.target before)
    (hdir : t.find? (path.append before).target = some .directory) :
    t.makeSteps path path.target (before ++ after) =
        t.makeSteps (path.append before) (path.append before).target after ∧
      t.madeSteps path path.target (before ++ after) =
        t.madeSteps (path.append before) (path.append before).target after := by
  induction before generalizing path with
  | nil => simp [Path.append]
  | cons s rest ih =>
    obtain ⟨hfirst, hs, hrest⟩ := hleads
    have htarget : path.target.next s.stored = (path.append [s]).target :=
      (path.target_append [s]).symm
    have happend : (path.append [s]).append rest = path.append (s :: rest) := by simp
    rw [htarget] at hrest
    rw [← happend] at hdir ⊢
    have hnext : t.find? (path.append [s]).target = some .directory :=
      hrest.directory (by rwa [← Path.target_append])
    obtain ⟨hmake, hmade⟩ := makeSteps_present (rest ++ after) hspelled.1 hfirst hs hnext
    rw [List.cons_append, hmake, hmade]
    exact ih hspelled.2 hrest hdir

private theorem missing_le (t : FileTree) (p : Place) (steps : List Text) :
    t.missing p steps ≤ steps.length := by
  induction steps generalizing p with
  | nil => rfl
  | cons s rest ih =>
    rw [missing]
    split
    next => rfl
    next q _ =>
      split_ifs
      · exact (ih q).trans (by simp)
      · rfl

/-- A step more on the way. -/
theorem spelled_append {path : Path} {before after : List Text} :
    Spelled path (before ++ after) ↔ Spelled path before ∧ Spelled (path.append before) after := by
  induction before generalizing path with
  | nil => simp [Spelled, Path.append]
  | cons s rest ih => simp [Spelled, ih, and_assoc]

/-- The last path on the way is spelled within the limits. -/
theorem Spelled.text {path : Path} {steps : List Text} (h : Spelled path steps) (hne : steps ≠ []) :
    checkSpelling (path.append steps).text = .ok () := by
  obtain ⟨init, last, rfl⟩ : ∃ init last, steps = init ++ [last] := by
    simpa [hne] using List.eq_nil_or_concat steps
  have hlast := (spelled_append.1 h).2.1
  rwa [Path.append_append] at hlast

/-- Is a path that of a directory which is there, and can all the paths that lead to it be
spelled? -/
structure HasDirectory (t : FileTree) (path : Path) : Prop where
  spelled : Spelled path.start path.steps
  leads : t.Leads path.origin path.steps
  directory : t.find? path.target = some .directory

/-- A directory that is there stays there as a tree grows. -/
theorem HasDirectory.mono {t u : FileTree} {path : Path} (hd : t.HasDirectory path)
    (h : t.Grows u) : u.HasDirectory path :=
  ⟨hd.spelled, hd.leads.mono h, h.directory hd.directory⟩

/-- The directory above one that is there is there. -/
theorem HasDirectory.parent {t : FileTree} {path : Path} (h : t.HasDirectory path) :
    t.HasDirectory path.parent := by
  obtain ⟨slashes, steps⟩ := path
  rcases List.eq_nil_or_concat steps with rfl | ⟨before, last, rfl⟩
  · exact h
  · obtain ⟨hspelled, hleads, -⟩ := h
    simp only [List.concat_eq_append] at hspelled hleads ⊢
    have hparent : Path.parent ⟨slashes, before ++ [last]⟩ = ⟨slashes, before⟩ := by
      simp [Path.parent]
    rw [hparent]
    obtain ⟨hbefore, hlast⟩ := leads_append.1 hleads
    exact ⟨(spelled_append.1 hspelled).1, hbefore, hlast.1⟩

/-- Making a directory puts a directory in the place of each path that is made. -/
theorem makeDirectories_fst (t : FileTree) (path : Path) :
    (t.makeDirectories path).1 = (t.made path).foldl addDirectory t := by
  unfold makeDirectories made
  split_ifs
  · rfl
  · exact (making t path.start path.steps).fst_eq

/-- Making a directory takes nothing away. -/
theorem grows_makeDirectories (t : FileTree) (path : Path) :
    t.Grows (t.makeDirectories path).1 := by
  unfold makeDirectories
  split_ifs
  · exact .refl t
  · exact (making t path.start path.steps).grows

/-- A directory that has been made is there. -/
theorem hasDirectory_of_makeDirectories {t u : FileTree} {path : Path}
    (h : t.makeDirectories path = (u, .ok ())) : u.HasDirectory path := by
  unfold makeDirectories at h
  split_ifs at h
  · simp at h
  · have hmaking := making t path.start path.steps
    rw [show t.makeSteps path.start path.start.target path.steps = (u, .ok ()) from h] at hmaking
    obtain ⟨hspelled, hleads, hdir⟩ := hmaking.leads rfl (find?_origin ..)
    exact ⟨hspelled, hleads, by rwa [Path.start_append_steps] at hdir⟩

/-- Below a directory that is there, directories are made only on the way down from it. -/
theorem HasDirectory.of_mem_made {t : FileTree} {root q : Path} {steps : List Text}
    (h : t.HasDirectory root) (hq : q ∈ t.made (root.append steps)) :
    ∃ before, before ≠ [] ∧ before <+: steps ∧ q = root.append before := by
  unfold made at hq
  split_ifs at hq
  · cases hq
  · have happend := (makeSteps_append steps h.spelled h.leads (by simpa using h.directory)).2
    rw [Path.start_append_steps] at happend
    rw [show t.madeSteps (root.append steps).start (root.append steps).start.target
      (root.append steps).steps = _ from happend] at hq
    exact ((making t root steps).of_mem hq).1

/-- No directory is made where it is already. -/
theorem HasDirectory.made_eq_nil {t : FileTree} {root : Path} (h : t.HasDirectory root) :
    t.made root = [] := by
  refine List.eq_nil_iff_forall_not_mem.2 fun q hq => ?_
  have happend : root.append [] = root := by simp [Path.append]
  rw [← happend] at hq
  obtain ⟨before, hne, hinit, -⟩ := h.of_mem_made hq
  exact hne (List.prefix_nil.1 hinit)

/-- On the way to where steps lead, all are directories. -/
theorem Leads.find?_prefix {t : FileTree} {root : Path} {steps before : List Text}
    (h : t.Leads root.origin (root.append steps).steps) (hbefore : before <+: steps)
    (hne : before ≠ steps) : t.find? (root.append before).target = some .directory := by
  obtain ⟨after, rfl⟩ := hbefore
  have hleads : t.Leads root.origin (root.steps ++ (before ++ after)) := h
  rw [← List.append_assoc] at hleads
  cases after with
  | nil => exact absurd (List.append_nil _).symm hne
  | cons s after => exact (leads_append.1 hleads).2.1

/-- On the way to a directory that is there, all are directories. -/
theorem HasDirectory.find?_prefix {t : FileTree} {root : Path} {steps before : List Text}
    (h : t.HasDirectory (root.append steps)) (hbefore : before <+: steps) :
    t.find? (root.append before).target = some .directory := by
  by_cases hne : before = steps
  · rw [hne]
    exact h.directory
  · exact Leads.find?_prefix h.leads hbefore hne

/-- Making a directory changes only the places of the paths that are made. -/
theorem find?_makeDirectories {t : FileTree} {path : Path} {q : Place}
    (h : ∀ p ∈ t.made path, q ≠ p.target) : (t.makeDirectories path).1.find? q = t.find? q := by
  rw [makeDirectories_fst]
  generalize t.made path = made at h
  induction made generalizing t with
  | nil => rfl
  | cons p rest ih =>
    rw [List.foldl_cons, ih fun p hp => h p (.tail _ hp)]
    exact find?_set_of_ne (h p (.head _))

/-- Directories can be made along ordinary steps that are within the limits and meet nothing but
directories. -/
theorem makeSteps_ok {t : FileTree} {path : Path} {steps : List Text}
    (hdir : t.find? path.target = some .directory) (hspelled : Spelled path steps)
    (hsteps : ∀ s ∈ steps, Path.IsOrdinary s ∧ s.IsStorable)
    (hfree : ∀ before, before ≠ [] → before <+: steps →
      t.find? (path.append before).target = none ∨
        t.find? (path.append before).target = some .directory) :
    (t.makeSteps path path.target steps).2 = .ok () := by
  induction steps generalizing t path with
  | nil => rfl
  | cons s rest ih =>
    have hlater (before : List Text) (h : before <+: rest) :=
      hfree (s :: before) (by simp) (by simpa using h)
    have happend (before : List Text) :
        (path.append [s]).append before = path.append (s :: before) := by simp
    have hrest : ∀ s ∈ rest, Path.IsOrdinary s ∧ s.IsStorable := fun s hs => hsteps s (.tail _ hs)
    rcases hlater [] (List.nil_prefix) with hnext | hnext
    · rw [(makeSteps_new rest hspelled.1 hdir (hsteps s (.head _)).2 hnext).1]
      refine ih (find?_set_self (standing?_of_empty hnext)) hspelled.2 hrest ?_
      intro before hne hbefore
      have hplace : ((path.append [s]).append before).target ≠ (path.append [s]).target := by
        rw [Path.target_append, Place.follow_ordinary fun s hs =>
          (hrest s (hbefore.subset hs)).1]
        simpa using hne
      rw [addDirectory, find?_set_of_ne hplace, happend]
      exact hlater before hbefore
    · rw [(makeSteps_present rest hspelled.1 hdir (hsteps s (.head _)).2 hnext).1]
      refine ih hnext hspelled.2 hrest ?_
      intro before hne hbefore
      rw [happend]
      exact hlater before hbefore

/-- Directories can be made below one that is there, within the limits and where nothing but
directories is met. -/
theorem HasDirectory.makeDirectories_ok {t : FileTree} {root : Path} {steps : List Text}
    (h : t.HasDirectory root) (hspelled : Spelled root steps)
    (hsteps : ∀ s ∈ steps, Path.IsOrdinary s ∧ s.IsStorable)
    (hlimit : (root.append steps).steps.length ≤ makingLimit)
    (hfree : ∀ before, before ≠ [] → before <+: steps →
      t.find? (root.append before).target = none ∨
        t.find? (root.append before).target = some .directory) :
    (t.makeDirectories (root.append steps)).2 = .ok () := by
  have hmissing := t.missing_le (root.append steps).origin (root.append steps).steps
  have happend := (makeSteps_append steps h.spelled h.leads (by simpa using h.directory)).1
  rw [Path.start_append_steps] at happend
  unfold makeDirectories
  rw [if_neg (by omega)]
  change (t.makeSteps root.start root.start.target (root.steps ++ steps)).2 = .ok ()
  rw [happend]
  exact makeSteps_ok h.directory hspelled hsteps hfree

end FileTree

end Latchwork

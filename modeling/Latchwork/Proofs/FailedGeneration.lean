import Latchwork.CommandLine.Run
import Latchwork.Proofs.Places

/-!
# What a generation that fails leaves behind

Nothing is written before a plan is complete, except that the files for archives are opened, and so
emptied, while the command line is read. A generation that fails while the netlist is loaded or
compiled has therefore emptied exactly these files, and changed nothing else.
-/

namespace Latchwork

open Outcome

namespace FileTree

/-- Do two trees have their directories and their devices in the same places? -/
structure SameShape (t u : FileTree) : Prop where
  directory (q : Place) : t.find? q = some .directory ↔ u.find? q = some .directory
  device (q : Place) : t.find? q = some .device ↔ u.find? q = some .device

private theorem SameShape.refl (t : FileTree) : t.SameShape t :=
    ⟨fun _ => Iff.rfl, fun _ => Iff.rfl⟩

private theorem SameShape.trans {t u v : FileTree} (h : t.SameShape u) (h' : u.SameShape v) :
    t.SameShape v :=
  ⟨fun q => (h.directory q).trans (h'.directory q), fun q => (h.device q).trans (h'.device q)⟩

/-- Writing keeps the shape of a tree. -/
theorem sameShape_write {t u : FileTree} {name : Text} {content : Bytes}
    (h : t.write name content = .ok u) : t.SameShape u := by
  obtain ⟨p, hopen, ⟨-, rfl⟩ | ⟨hdev, rfl⟩⟩ := write_eq_ok.1 h
  · exact .refl _
  · have hdir := (openForWriting_eq_ok.1 hopen).2.2.2
    have hstanding : standing? p = none := standing?_eq_none hdir hdev
    constructor
    · intro q
      rw [find?_set hstanding]
      split_ifs with hq
      · simp [hq, hdir]
      · rfl
    · intro q
      rw [find?_set hstanding]
      split_ifs with hq
      · simp [hq, hdev]
      · rfl

private theorem SameShape.leads {t u : FileTree} (h : t.SameShape u) {p : Place}
    {steps : List Text} :
    t.Leads p steps ↔ u.Leads p steps := by
  induction steps generalizing p with
  | nil => exact Iff.rfl
  | cons s rest ih => simp only [Leads, h.directory, ih]

private theorem SameShape.openForWriting {t u : FileTree} (h : t.SameShape u) {name : Text}
    {q : Place} :
    t.openForWriting name = .ok q ↔ u.openForWriting name = .ok q := by
  simp only [openForWriting_eq_ok, locate, walk_eq_ok, h.leads, h.directory, ne_eq]

/-! ## Emptying files -/

/-- Empties the file of a name. -/
def emptyFile (t : FileTree) (name : Text) : Except Error FileTree := t.write name []

/-- Does one of the names lead to a place where it empties a file or puts an empty one? -/
def IsEmptied (t : FileTree) (names : List Text) (q : Place) : Prop :=
  (∃ name ∈ names, t.openForWriting name = .ok q) ∧ t.find? q ≠ some .device

/-- What emptying the files of some names leaves: each name can be opened, the places that the names
lead to hold empty files, and all others what they held. -/
structure Emptied (t : FileTree) (names : List Text) (u : FileTree) : Prop where
  shape : t.SameShape u
  opened : ∀ name ∈ names, ∃ q, t.openForWriting name = .ok q
  empty {q : Place} : t.IsEmptied names q → u.find? q = some (.file [])
  other {q : Place} : ¬t.IsEmptied names q → u.find? q = t.find? q

private theorem isEmptied_append {t : FileTree} {names : List Text} {name : Text} {p q : Place}
    (hp : t.openForWriting name = .ok p) :
    t.IsEmptied (names ++ [name]) q ↔
      t.IsEmptied names q ∨ q = p ∧ t.find? q ≠ some .device := by
  have hname : t.openForWriting name = .ok q ↔ q = p := by
    rw [hp, Except.ok.injEq, eq_comm]
  simp only [IsEmptied, List.mem_append, List.mem_singleton, or_and_right, exists_or,
    exists_eq_left, hname]

/-- One more file is emptied. -/
theorem Emptied.next {t u v : FileTree} {names : List Text} {name : Text}
    (h : t.Emptied names u) (hv : u.emptyFile name = .ok v) : t.Emptied (names ++ [name]) v := by
  obtain ⟨p, hopen, hentry⟩ := write_eq_ok.1 hv
  have hopen' : t.openForWriting name = .ok p := h.shape.openForWriting.2 hopen
  have hdir := (openForWriting_eq_ok.1 hopen).2.2.2
  refine ⟨h.shape.trans (sameShape_write hv), ?_, ?_, ?_⟩
  · intro other hother
    rcases List.mem_append.1 hother with hother | hother
    · exact h.opened other hother
    · exact ⟨p, by rw [List.mem_singleton.1 hother, hopen']⟩
  · intro q hq
    rw [isEmptied_append hopen'] at hq
    rcases hentry with ⟨hdev, rfl⟩ | ⟨hdev, rfl⟩
    · rcases hq with hq | ⟨rfl, hne⟩
      · exact h.empty hq
      · exact absurd ((h.shape.device _).2 hdev) hne
    · rw [find?_set (standing?_eq_none hdir hdev)]
      split_ifs with heq
      · rfl
      · rcases hq with hq | ⟨hq, -⟩
        · exact h.empty hq
        · exact absurd hq heq
  · intro q hq
    rw [isEmptied_append hopen', not_or] at hq
    rcases hentry with ⟨-, rfl⟩ | ⟨hdev, rfl⟩
    · exact h.other hq.1
    · have hne : q ≠ p := by
        rintro rfl
        exact hq.2 ⟨rfl, fun h' => hdev ((h.shape.device _).1 h')⟩
      rw [find?_set_of_ne hne]
      exact h.other hq.1

private theorem emptied_of_foldlM {t u : FileTree} {names : List Text}
    (h : names.foldlM emptyFile t = .ok u) : t.Emptied names u := by
  refine foldlM_induct (P := fun done u => t.Emptied done u) h ?_ ?_
  · exact ⟨.refl t, by simp, by simp [IsEmptied], fun _ => rfl⟩
  · intro before name after u v _ hu hv
    exact hu.next hv

end FileTree

namespace CommandLine

/-- The files that something given to an action empties at once. -/
def Event.archives : Event → List Text
  | .value o (some text) => if o.id = .archive ∧ text ≠ "-" then [text] else []
  | _ => []

/-- The files that are emptied at once by something given before or as the action. -/
def Event.actionArchives : Event → List Text
  | .operand (name :: rest) =>
    (Action.ofText? name).toList.flatMap fun a => (a.grammar.parse rest).events.flatMap archives
  | _ => []

/-- The files that a command line names for archives, in order. -/
def archiveNames (args : List Text) : List Text :=
  (mainGrammar.parse args).events.flatMap Event.actionArchives

namespace Setup

/-! ## Reading a command line -/

/-- Does a step of reading a command line, unless it has led to nothing, empty some files and leave
the others? -/
def Empties (s : Setup) (names : List Text) (r : Setup) : Prop :=
  r.stop = none → s.stop = none ∧ names.foldlM FileTree.emptyFile s.tree = .ok r.tree

private theorem Empties.of_tree {s r : Setup} (hstop : s.stop = none) (h : r.tree = s.tree) :
    s.Empties [] r :=
  fun _ => ⟨hstop, by rw [h]; rfl⟩

private theorem Empties.of_stop {s r : Setup} {names : List Text} (h : r.stop ≠ none) :
    s.Empties names r :=
  fun hr => absurd hr h

private theorem Empties.trans {s m r : Setup} {names later : List Text} (h : s.Empties names m)
    (h' : m.Empties later r) : s.Empties (names ++ later) r := by
  intro hr
  obtain ⟨hm, hlater⟩ := h' hr
  obtain ⟨hs, hnames⟩ := h hm
  refine ⟨hs, ?_⟩
  rw [List.foldlM_append]
  exact bind_eq_ok.2 ⟨_, hnames, hlater⟩

private theorem Empties.foldl {step : Setup → Event → Setup} {names : Event → List Text}
    (hstep : ∀ (s : Setup) (e : Event), s.Empties (names e) (step s e)) (events : List Event)
    (s : Setup) :
    s.Empties (events.flatMap names) (events.foldl step s) := by
  induction events generalizing s with
  | nil => exact fun h => ⟨h, rfl⟩
  | cons e rest ih =>
    rw [List.flatMap_cons]
    exact (hstep s e).trans (ih (step s e))

private theorem empties_takeArchive {s : Setup} (hstop : s.stop = none) (program : String)
    (o : OptionSpec) (text : Text) :
    s.Empties (if text ≠ "-" then [text] else []) (s.takeArchive program o text) := by
  unfold takeArchive Channel.ofText
  by_cases hdash : text = "-"
  · simp only [hdash, beq_self_eq_true, if_true, ne_eq, not_true_eq_false, if_false]
    exact .of_tree hstop rfl
  · simp only [hdash, beq_eq_false_iff_ne.2 hdash, Bool.false_eq_true, if_false, ne_eq,
      not_false_eq_true, if_true]
    cases hwrite : s.tree.write text [] with
    | ok tree =>
      exact fun _ => ⟨hstop, foldlM_singleton.trans hwrite⟩
    | error e => exact .of_stop (by simp [refuseFile, refuse])

/-- Of the options with a value only an archive empties anything. -/
theorem empties_takeValue {s : Setup} (hstop : s.stop = none) (program : String) (o : OptionSpec)
    (given : Option Text) :
    s.Empties (Event.archives (.value o given)) (s.takeValue program o given) := by
  have hnone (h : o.id ≠ .archive) : Event.archives (.value o given) = [] := by
    cases given <;> simp [Event.archives, h]
  unfold takeValue
  cases hid : o.id with
  | archive =>
    cases given with
    | none => exact .of_tree hstop rfl
    | some text =>
      have htext : Event.archives (.value o (some text)) = if text ≠ "-" then [text] else [] := by
        simp [Event.archives, hid]
      rw [htext]
      exact empties_takeArchive hstop program o text
  | input =>
    rw [hnone (by simp [hid])]
    refine .of_tree hstop ?_
    simp only [takeInput]
    split
    · rfl
    · split <;> rfl
  | help | verbose | name | outputDirectory | done | noVendor | python =>
    rw [hnone (by simp [hid])]
    exact .of_tree hstop rfl

private theorem empties_takeFlag {s : Setup} (hstop : s.stop = none) (id : OptionId) :
    s.Empties [] (s.takeFlag id) := by
  refine .of_tree hstop ?_
  cases id <;> rfl

private theorem empties_take (g : Grammar) (s : Setup) (e : Event) :
    s.Empties e.archives (take g s e) := by
  unfold take
  split_ifs with hstop
  · exact .of_stop (Option.isSome_iff_ne_none.1 hstop)
  replace hstop : s.stop = none := by simpa using hstop
  cases e with
  | flag o => exact empties_takeFlag hstop o.id
  | value o given => exact empties_takeValue hstop g.program o given
  | operand texts =>
    refine .of_tree hstop ?_
    simp only [takeNetlist]
    split
    · rfl
    · split <;> rfl

private theorem empties_finish (s : Setup) (program : String) (ending : Ending) :
    s.Empties [] (s.finish program ending) := by
  unfold finish
  split_ifs with hstop
  · exact .of_stop (Option.isSome_iff_ne_none.1 hstop)
  · cases ending <;> exact .of_tree (by simpa using hstop) rfl

private theorem empties_takeAction {s : Setup} (hstop : s.stop = none) (texts : List Text) :
    s.Empties (Event.actionArchives (.operand texts)) (s.takeAction texts) := by
  cases texts with
  | nil => exact .of_tree hstop rfl
  | cons name rest =>
    cases haction : Action.ofText? name with
    | none => exact .of_stop (by simp [takeAction, haction, refuse])
    | some a =>
      have hevents := (Empties.foldl (empties_take a.grammar) (a.grammar.parse rest).events
        { s with invocation := { s.invocation with action := some a } }).trans
          (empties_finish _ a.grammar.program (a.grammar.parse rest).ending)
      simpa [takeAction, Event.actionArchives, haction, Empties] using hevents

private theorem empties_takeMain (s : Setup) (e : Event) :
    s.Empties e.actionArchives (s.takeMain e) := by
  unfold takeMain
  split_ifs with hstop
  · exact .of_stop (Option.isSome_iff_ne_none.1 hstop)
  replace hstop : s.stop = none := by simpa using hstop
  cases e with
  | flag o => exact empties_takeFlag hstop o.id
  | value => exact .of_tree hstop rfl
  | operand texts => exact empties_takeAction hstop texts

private theorem emptied_ofArguments {args : List Text} {tree : FileTree}
    (h : (ofArguments args tree).stop = none) :
    tree.Emptied (archiveNames args) (ofArguments args tree).tree := by
  have hread := (Empties.foldl empties_takeMain (mainGrammar.parse args).events
    ⟨{}, tree, [], none⟩).trans (empties_finish _ program (mainGrammar.parse args).ending)
  rw [List.append_nil] at hread
  unfold ofArguments at h ⊢
  simp only at h ⊢
  split_ifs at h ⊢
  · exact FileTree.emptied_of_foldlM (hread h).2
  · simp [refuse] at h

end Setup

/-! ## Failing to prepare a plan -/

/-- The name that the plan is given. -/
def Invocation.planName (i : Invocation) (source : Channel) : Value :=
  i.name.getD (.text (stem source.name))

/-- The settings that the plan is prepared with. -/
def Invocation.settings (i : Invocation) : Settings :=
  { done := i.done, vendor := .bool i.vendor, python := i.python }

/-- Loads the netlist and prepares its plan. -/
def Session.prepare [Machine] (s : Session) (i : Invocation) (tree : FileTree) (source : Channel) :
    Except Error Plan := do
  let n ← (netlistText s tree source).bind Netlist.ofText
  (n.prepare (i.planName source) i.settings s.env).2

/-- Does the command line ask for the files of a netlist that cannot be loaded or compiled? -/
def Session.FailsToPrepare [Machine] (s : Session) (e : Error) : Prop :=
  let setup := Setup.ofArguments s.args s.tree
  setup.stop = none ∧ setup.invocation.action = some .generate ∧
    ∃ source, setup.invocation.netlist = some source ∧
      s.prepare setup.invocation setup.tree source = .error e

private theorem generate_of_error [Machine] {env : Environment} {i : Invocation} {source : Channel}
    {n : Netlist} {logs : List LogEntry} {e : Error} (tree : FileTree)
    (h : n.prepare (i.planName source) i.settings env = (logs, .error e)) :
    generate env i source n tree = failed tree (shownLogs i.verbose logs) e := by
  unfold Invocation.planName Invocation.settings at h
  unfold generate
  simp only [h]

private theorem run_of_failsToPrepare [Machine] {s : Session} {e : Error} (h : s.FailsToPrepare e) :
    ∃ shown, run s = failed (Setup.ofArguments s.args s.tree).tree shown e := by
  obtain ⟨hstop, haction, source, hsource, hprepare⟩ := h
  unfold run
  simp only [hstop, haction, hsource]
  rcases bind_eq_error.1 hprepare with hload | ⟨n, hload, hplan⟩
  · exact ⟨.empty, by rw [hload]⟩
  · rw [hload]
    exact ⟨_, generate_of_error _ (Prod.ext rfl hplan)⟩

private theorem conclusion_of_failsToPrepare [Machine] {s : Session} {e : Error}
    (h : s.FailsToPrepare e) :
    (run s).conclusion =
      if isReported e.raised.family then .exited 1 else .raised e.raised := by
  obtain ⟨shown, hrun⟩ := run_of_failsToPrepare h
  rw [hrun, failed]
  split_ifs <;> rfl

private theorem emptied_of_failsToPrepare [Machine] {s : Session} {e : Error}
    (h : s.FailsToPrepare e) :
    s.tree.Emptied (archiveNames s.args) (run s).tree := by
  obtain ⟨shown, hrun⟩ := run_of_failsToPrepare h
  have htree : (run s).tree = (Setup.ofArguments s.args s.tree).tree := by
    rw [hrun, failed]
    split_ifs <;> rfl
  rw [htree]
  exact Setup.emptied_ofArguments h.1

/-- A generation that fails while the netlist is loaded or compiled has emptied the files that the
command line names for archives, and changed nothing else. So it leaves all files as they were
exactly if each of these is empty already, or a device. -/
theorem untouched_iff_of_failsToPrepare [Machine] {s : Session} {e : Error}
    (h : s.FailsToPrepare e) :
    ((run s).conclusion =
        if isReported e.raised.family then .exited 1 else .raised e.raised) ∧
      (∀ q, (s.tree.IsEmptied (archiveNames s.args) q → (run s).tree.find? q = some (.file [])) ∧
        (¬s.tree.IsEmptied (archiveNames s.args) q → (run s).tree.find? q = s.tree.find? q)) ∧
      ((∀ q, (run s).tree.find? q = s.tree.find? q) ↔
        ∀ name ∈ archiveNames s.args, ∃ q, s.tree.openForWriting name = .ok q ∧
          (s.tree.find? q = some (.file []) ∨ s.tree.find? q = some .device)) := by
  have hemptied := emptied_of_failsToPrepare h
  refine ⟨conclusion_of_failsToPrepare h, fun q => ⟨hemptied.empty, hemptied.other⟩, ?_⟩
  constructor
  · intro hsame name hname
    obtain ⟨q, hq⟩ := hemptied.opened name hname
    refine ⟨q, hq, ?_⟩
    by_cases hdev : s.tree.find? q = some .device
    · exact .inr hdev
    · rw [← hsame q]
      exact .inl (hemptied.empty ⟨⟨name, hname, hq⟩, hdev⟩)
  · intro hnames q
    by_cases hq : s.tree.IsEmptied (archiveNames s.args) q
    · rw [hemptied.empty hq]
      obtain ⟨⟨name, hname, hopen⟩, hdev⟩ := hq
      obtain ⟨q', hopen', hentry⟩ := hnames name hname
      cases hopen.symm.trans hopen'
      exact (hentry.resolve_right hdev).symm
    · exact hemptied.other hq

/-- Generation from an empty text, which is no netlist, into an archive. -/
def blank (archive : Text) : Session := ⟨["generate", "-", "--archive", archive], [], "", .empty⟩

/-- What is wrong with an empty text. -/
def blankError : Error := .unreadable (.malformed .expectingValue ⟨1, 1, 0⟩)

private theorem failsToPrepare_blank [Machine] {archive : Text}
    (h : archive = "/dev/null" ∨ archive = "out.zip") :
    (blank archive).FailsToPrepare blankError := by
  have hload : Netlist.ofText "" = .error blankError := by cbv
  have hprepare (i : Invocation) (tree : FileTree) :
      (blank archive).prepare i tree .standard = .error blankError :=
    bind_eq_error.2 (.inl hload)
  rcases h with rfl | rfl
  · exact ⟨by decide +kernel, by decide +kernel, .standard, by decide +kernel, hprepare _ _⟩
  · exact ⟨by decide +kernel, by decide +kernel, .standard, by decide +kernel, hprepare _ _⟩

open Desktop in
/-- The null device is not touched. -/
theorem blank_null_untouched :
    (run (blank "/dev/null")).conclusion = .exited 1 ∧
      ∀ q, (run (blank "/dev/null")).tree.find? q = (blank "/dev/null").tree.find? q := by
  have hnames : archiveNames (blank "/dev/null").args = [↑"/dev/null"] := by decide +kernel
  have hopen : (blank "/dev/null").tree.openForWriting "/dev/null" =
      .ok ⟨true, [↑"dev", ↑"null"]⟩ := by cbv
  obtain ⟨hconclusion, -, huntouched⟩ :=
    untouched_iff_of_failsToPrepare (failsToPrepare_blank (.inl rfl))
  refine ⟨hconclusion, huntouched.2 ?_⟩
  rw [hnames]
  intro name hname
  rw [List.mem_singleton.1 hname]
  exact ⟨_, hopen, .inr (by decide)⟩

open Desktop in
/-- An archive in the working directory is left empty. -/
theorem blank_archive_touched :
    (run (blank "out.zip")).conclusion = .exited 1 ∧
      ¬∀ q, (run (blank "out.zip")).tree.find? q = (blank "out.zip").tree.find? q := by
  refine ⟨conclusion_of_failsToPrepare (failsToPrepare_blank (.inr rfl)), fun h => ?_⟩
  have hfile : (run (blank "out.zip")).tree.find? ⟨false, ["out.zip"]⟩ = some (.file []) := by
    decide +kernel
  rw [h] at hfile
  exact absurd hfile (by decide)

end CommandLine

end Latchwork

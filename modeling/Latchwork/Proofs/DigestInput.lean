import Latchwork.Proofs.Confinement

/-!
# What a digest is computed from

The digest of a plan is the hash of its file names and contents, one after another in order of the
names, and of the name of its circuit. Nothing says where one of these ends and the next begins. So
two plans that are hashed from the same bytes agree exactly if they cut these bytes at the same
places, and hardly any plan is the only one that is hashed from its bytes: it must have no name, and
one file without a name, in whose content nothing could be a name.
-/

namespace Latchwork

open Outcome

private theorem Outcome.mapM_map {ε α β γ : Type} {f : α → Except ε β} {g : β → γ} {xs : List α} :
    xs.mapM (fun x => (f x).map g) = (xs.mapM f).map (List.map g) := by
  induction xs with
  | nil => rfl
  | cons x rest ih =>
    rw [List.mapM_cons, List.mapM_cons, ih]
    cases f x with
    | error e => rfl
    | ok y => cases rest.mapM f <;> rfl

/-! ### Texts in bytes and in order -/

namespace Text

private theorem utf8_eq_ok {t : Text} {b : Bytes} :
    t.utf8 = .ok b ↔ ∃ s : String, t = ofString s ∧ Bytes.ofString s = b := by
  constructor
  · intro h
    unfold utf8 at h
    split at h
    · next s hs =>
      obtain ⟨cs, hcs, rfl⟩ := Option.map_eq_some_iff.mp hs
      cases h
      refine ⟨String.ofList cs, ?_, rfl⟩
      ext1
      rw [eq_map_of_mapM_char? hcs, points_ofString, String.toList_ofList]
    · cases h
  · rintro ⟨s, rfl, rfl⟩
    exact utf8_ofString s

private theorem utf8_inj {t u : Text} {b : Bytes} (ht : t.utf8 = .ok b) (hu : u.utf8 = .ok b) :
    t = u := by
  obtain ⟨s, rfl, hs⟩ := utf8_eq_ok.mp ht
  obtain ⟨s', rfl, hs'⟩ := utf8_eq_ok.mp hu
  rw [ofString_inj, ← String.toByteArray_inj]
  apply ByteArray.ext
  apply Array.ext'
  exact hs.trans hs'.symm

@[simp] theorem utf8_empty : empty.utf8 = .ok [] := rfl

private theorem precedes_iff {a b : Text} : a.precedes b = true ↔ a.codes ≤ b.codes := by
  rw [precedes, Bool.not_eq_true', ← Bool.not_eq_true, List.lex_eq_true_iff_lt]
  exact not_lt

theorem codes_inj {a b : Text} (h : a.codes = b.codes) : a = b := by
  apply ext
  exact List.map_injective_iff.mpr (fun _ _ => CodePoint.value_inj.mp) h

private theorem codes_empty_lt {t : Text} (h : t ≠ empty) : empty.codes < t.codes := by
  cases hcodes : t.codes with
  | nil => exact absurd (codes_inj hcodes) h
  | cons code rest => exact List.nil_lt_cons code rest

end Text

/-! ### Parts of the input -/

namespace Plan

variable {p q : Plan}

/-- The name and the content of a file, both in bytes. -/
def part (f : Text × FileContent) : Except Error (Bytes × Bytes) :=
  f.1.utf8.bind fun name => f.2.toBytes.map fun content => (name, content)

/-- The names and contents of a plan in bytes, in order of the names. -/
def parts (p : Plan) : Except Error (List (Bytes × Bytes)) := p.sortedFiles.mapM part

/-- Parts one after another. -/
def joined (parts : List (Bytes × Bytes)) : Bytes := parts.flatMap fun f => f.1 ++ f.2

private theorem part_eq_ok {f : Text × FileContent} {name content : Bytes} :
    part f = .ok (name, content) ↔ f.1.utf8 = .ok name ∧ f.2.toBytes = .ok content := by
  unfold part
  cases f.1.utf8 <;> cases f.2.toBytes <;> simp [Except.bind, Except.map]

/-- The input of the digest is the parts of the files and then the name of the circuit. -/
theorem digestInput_eq_ok {input : Bytes} :
    p.digestInput = .ok input ↔ ∃ parts name, p.parts = .ok parts ∧ p.nameBytes = .ok name ∧
      joined parts ++ name = input := by
  have hpieces : (p.sortedFiles.mapM fun f => do
      let name ← f.1.utf8
      let content ← f.2.toBytes
      return name ++ content) = p.parts.map (List.map fun f => f.1 ++ f.2) := by
    rw [parts, ← mapM_map]
    apply congrArg (fun piece => p.sortedFiles.mapM piece)
    ext1 f
    unfold part
    cases f.1.utf8 <;> cases f.2.toBytes <;> rfl
  unfold digestInput
  rw [hpieces]
  cases hparts : p.parts with
  | error e => simp [Except.map, bind, Except.bind]
  | ok parts =>
    cases hname : p.nameBytes with
    | error e => simp [Except.map, bind, Except.bind]
    | ok name => simp [Except.map, bind, Except.bind, pure, Except.pure, joined, List.flatMap]

private theorem nameBytes_eq_ok {bytes : Bytes} :
    p.nameBytes = .ok bytes ↔ ∃ name : Text, p.name = .text name ∧ name.utf8 = .ok bytes := by
  unfold nameBytes
  split
  · next name hname => simp [hname]
  · next hother =>
    simp only [reduceCtorEq, false_iff, not_exists, not_and]
    intro name hname
    exact absurd hname (hother name)

private theorem digestInput_of_file {name : Text} {content : FileContent} {n c title : Bytes}
    (hfiles : p.files = [(name, content)]) (hname : name.utf8 = .ok n)
    (hcontent : content.toBytes = .ok c) (htitle : p.nameBytes = .ok title) :
    p.digestInput = .ok (n ++ c ++ title) := by
  refine digestInput_eq_ok.mpr ⟨[(n, c)], title, ?_, htitle, by simp [joined]⟩
  rw [parts, sortedFiles, hfiles, List.mergeSort_singleton, mapM_eq_ok, List.map_singleton,
    part_eq_ok.mpr ⟨hname, hcontent⟩]
  rfl

/-! ### Plans that agree -/

/-- Does a plan hold a file of a name with a content in bytes? -/
def Holds (p : Plan) (name : Text) (content : Bytes) : Prop :=
  ∃ c, (name, c) ∈ p.files ∧ c.toBytes = .ok content

/-- Have two plans the same circuit name, and the same names and contents of files? -/
structure Agrees (p q : Plan) : Prop where
  name : p.name = q.name
  files : ∀ name content, p.Holds name content ↔ q.Holds name content

private theorem Agrees.symm (h : p.Agrees q) : q.Agrees p :=
  ⟨h.name.symm, fun name content => (h.files name content).symm⟩

theorem sortedFiles_perm (p : Plan) : p.sortedFiles.Perm p.files := List.mergeSort_perm _ _

theorem nodup_sortedFiles (p : Plan) : (p.sortedFiles.map Prod.fst).Nodup :=
  (p.sortedFiles_perm.map Prod.fst).nodup_iff.mpr p.namesDistinct

theorem pairwise_sortedFiles (p : Plan) :
    p.sortedFiles.Pairwise fun f g => f.1.codes ≤ g.1.codes := by
  have hsorted : p.sortedFiles.Pairwise fun f g => f.1.precedes g.1 = true := by
    apply List.pairwise_mergeSort
    · intro f g h hfg hgh
      exact Text.precedes_iff.mpr (le_trans (Text.precedes_iff.mp hfg) (Text.precedes_iff.mp hgh))
    · intro f g
      rw [Bool.or_eq_true, Text.precedes_iff, Text.precedes_iff]
      exact le_total _ _
  exact hsorted.imp Text.precedes_iff.mp

/-- What is taken of each file is in one order, whatever order the files were added in: both plans
have their files in order of the names, and a name is there once. -/
theorem map_sortedFiles_eq {α : Type} {g : Text × FileContent → α}
    (h : (p.files.map fun f => (f.1, g f)).Perm (q.files.map fun f => (f.1, g f))) :
    (p.sortedFiles.map fun f => (f.1, g f)) = q.sortedFiles.map fun f => (f.1, g f) := by
  have hperm : (p.sortedFiles.map fun f => (f.1, g f)).Perm
      (q.sortedFiles.map fun f => (f.1, g f)) :=
    ((p.sortedFiles_perm.map _).trans h).trans (q.sortedFiles_perm.map _).symm
  have hdistinct : ((q.sortedFiles.map fun f => (f.1, g f)).map Prod.fst).Nodup := by
    rw [List.map_map]
    exact q.nodup_sortedFiles
  have hsorted (r : Plan) :
      (r.sortedFiles.map fun f => (f.1, g f)).Pairwise fun e d => e.1.codes ≤ d.1.codes :=
    List.pairwise_map.mpr r.pairwise_sortedFiles
  refine hperm.eq_of_pairwise ?_ (hsorted p) (hsorted q)
  intro e d he hd hed hde
  exact List.inj_on_of_nodup_map hdistinct (hperm.mem_iff.mp he) hd
    (Text.codes_inj (le_antisymm hed hde))

private theorem holds_iff {parts : List (Bytes × Bytes)} (h : p.parts = .ok parts) {name : Text}
    {content : Bytes} :
    p.Holds name content ↔ ∃ bytes, name.utf8 = .ok bytes ∧ (bytes, content) ∈ parts := by
  constructor
  · rintro ⟨c, hmem, hc⟩
    obtain ⟨⟨bytes, content'⟩, hpart, hf⟩ := exists_result h (p.sortedFiles_perm.mem_iff.mpr hmem)
    obtain ⟨hname, hcontent⟩ := part_eq_ok.mp hf
    cases hc.symm.trans hcontent
    exact ⟨bytes, hname, hpart⟩
  · rintro ⟨bytes, hname, hmem⟩
    obtain ⟨f, hf, hpart⟩ := exists_element h hmem
    obtain ⟨hn, hc⟩ := part_eq_ok.mp hpart
    rw [Text.utf8_inj hname hn]
    exact ⟨f.2, p.sortedFiles_perm.mem_iff.mp hf, hc⟩

/-- The names of a plan with their contents as they are encoded, in order. -/
def encoded (p : Plan) : List (Text × Except Error Bytes) :=
  p.sortedFiles.map fun f => (f.1, f.2.toBytes)

private theorem encoded_perm (p : Plan) : p.encoded.Perm
    (p.files.map fun f => (f.1, f.2.toBytes)) :=
  p.sortedFiles_perm.map _

private theorem nodup_encoded (p : Plan) : p.encoded.Nodup := by
  apply List.Nodup.of_map Prod.fst
  rw [encoded, List.map_map]
  exact p.nodup_sortedFiles

private theorem Agrees.encoded_subset (h : p.Agrees q) {parts : List (Bytes × Bytes)}
    (hp : p.parts = .ok parts) : p.encoded ⊆ q.encoded := by
  intro e he
  obtain ⟨f, hf, rfl⟩ := List.mem_map.mp he
  obtain ⟨⟨bytes, content⟩, -, hpart⟩ := exists_result hp hf
  have hcontent := (part_eq_ok.mp hpart).2
  obtain ⟨c, hmem, hc⟩ :=
    (h.files f.1 content).mp ⟨f.2, p.sortedFiles_perm.mem_iff.mp hf, hcontent⟩
  refine List.mem_map.mpr ⟨(f.1, c), q.sortedFiles_perm.mem_iff.mpr hmem, ?_⟩
  rw [hc, hcontent]

private theorem Agrees.parts_eq (h : p.Agrees q) {ps qs : List (Bytes × Bytes)}
    (hp : p.parts = .ok ps) (hq : q.parts = .ok qs) : ps = qs := by
  have hperm : p.encoded.Perm q.encoded :=
    (List.perm_ext_iff_of_nodup p.nodup_encoded q.nodup_encoded).mpr
      fun e => ⟨fun he => h.encoded_subset hp he, fun he => h.symm.encoded_subset hq he⟩
  have hencoded : p.encoded = q.encoded :=
    map_sortedFiles_eq ((p.encoded_perm.symm.trans hperm).trans q.encoded_perm)
  have hparts (r : Plan) : r.parts = r.encoded.mapM fun e =>
      e.1.utf8.bind fun name => e.2.map fun content => (name, content) := by
    rw [encoded, List.mapM_map]
    rfl
  rw [hparts, hencoded, ← hparts, hq] at hp
  exact (Except.ok.inj hp).symm

/-! ### Where the input is cut -/

/-- The numbers of bytes of a part. -/
def size (f : Bytes × Bytes) : Nat × Nat := (f.1.length, f.2.length)

/-- The numbers of bytes of the names and contents, in order of the names. -/
def cuts (p : Plan) : Except Error (List (Nat × Nat)) := p.parts.map (List.map size)

/-- Parts that are cut at the same places of the same bytes are the same. -/
theorem eq_of_joined {ps qs : List (Bytes × Bytes)} {a b : Bytes}
    (hsizes : ps.map size = qs.map size) (h : joined ps ++ a = joined qs ++ b) :
    ps = qs ∧ a = b := by
  induction ps generalizing qs with
  | nil =>
    rw [List.map_nil, eq_comm, List.map_eq_nil_iff] at hsizes
    subst hsizes
    exact ⟨rfl, h⟩
  | cons f ps ih =>
    cases qs with
    | nil => cases hsizes
    | cons g qs =>
      obtain ⟨hsize, hrest⟩ := List.cons.inj hsizes
      obtain ⟨hname, hcontent⟩ := Prod.mk.inj hsize
      simp only [joined, List.flatMap_cons, List.append_assoc] at h
      obtain ⟨hn, h⟩ := List.append_inj h hname
      obtain ⟨hc, h⟩ := List.append_inj h hcontent
      obtain ⟨rfl, rfl⟩ := ih hrest h
      exact ⟨congrArg (· :: ps) (Prod.ext hn hc), rfl⟩

/-- Plans with the same input agree exactly if they cut it at the same places. -/
theorem agrees_iff_cuts {input : Bytes} (hp : p.digestInput = .ok input)
    (hq : q.digestInput = .ok input) : p.Agrees q ↔ p.cuts = q.cuts := by
  obtain ⟨ps, title, hps, htitle, hinput⟩ := digestInput_eq_ok.mp hp
  obtain ⟨qs, title', hqs, htitle', hinput'⟩ := digestInput_eq_ok.mp hq
  unfold cuts
  rw [hps, hqs]
  constructor
  · intro h
    rw [h.parts_eq hps hqs]
  · intro h
    obtain ⟨rfl, rfl⟩ := eq_of_joined (Except.ok.inj h) (hinput.trans hinput'.symm)
    constructor
    · obtain ⟨name, hname, hutf8⟩ := nameBytes_eq_ok.mp htitle
      obtain ⟨name', hname', hutf8'⟩ := nameBytes_eq_ok.mp htitle'
      rw [hname, hname', Text.utf8_inj hutf8 hutf8']
    · intro name content
      rw [holds_iff hps, holds_iff hqs]

/-! ### Plans with a given input -/

private theorem filled_concat (name : Value) (calls : List (Value × FileContent))
    (call : Value × FileContent) :
    filled name (calls ++ [call]) =
      ((filled name calls).addOf call.1 call.2).toOption.getD (filled name calls) := by
  simp [filled]

/-- Additions leave the name of the circuit as it is. -/
theorem name_filled (name : Value) (calls : List (Value × FileContent)) :
    (filled name calls).name = name := by
  induction calls using List.reverseRecOn with
  | nil => rfl
  | append_singleton calls call ih =>
    rw [filled_concat]
    unfold addOf add
    split
    · split
      · exact ih
      · split <;> exact ih
    · exact ih

/-- Of files with distinct names, all are added but those whose names are absolute. -/
theorem files_filled_eq_filter (name : Value) (files : List (Text × FileContent))
    (hdistinct : (files.map Prod.fst).Nodup) :
    (filled name (files.map fun f => (.text f.1, f.2))).files =
      files.filter fun f => !isAbsoluteName f.1 := by
  induction files using List.reverseRecOn with
  | nil => rfl
  | append_singleton files f ih =>
    rw [List.map_append, List.nodup_append] at hdistinct
    have hfiles := ih hdistinct.1
    have hnew : f.1 ∉ (filled name (files.map fun f => (.text f.1, f.2))).files.map Prod.fst := by
      rw [hfiles]
      intro hmem
      have hname : f.1 ∈ files.map Prod.fst := (List.filter_sublist.map Prod.fst).subset hmem
      exact hdistinct.2.2 f.1 hname f.1 (by simp) rfl
    rw [List.map_append, List.map_singleton, filled_concat, List.filter_append]
    change (((filled name _).add f.1 f.2).toOption.getD _).files = _
    by_cases habsolute : isAbsoluteName f.1 = true
    · rw [add, dif_neg hnew, if_pos habsolute, List.filter_cons_of_neg (by simp [habsolute]),
        List.filter_nil, List.append_nil]
      exact hfiles
    · obtain ⟨q, hq⟩ := exists_add f.2 hnew (Bool.eq_false_iff.mpr habsolute)
      rw [hq, List.filter_cons_of_pos (by simp [habsolute])]
      exact (files_of_add hq).trans (by rw [hfiles]; rfl)

private theorem files_filled (name : Value) (files : List (Text × FileContent))
    (hdistinct : (files.map Prod.fst).Nodup) (hrelative : ∀ f ∈ files, isAbsoluteName f.1 = false) :
    (filled name (files.map fun f => (.text f.1, f.2))).files = files := by
  rw [files_filled_eq_filter name files hdistinct, List.filter_eq_self]
  intro f hf
  rw [hrelative f hf]
  rfl

/-- Files whose names are in order and not absolute are hashed in this order. -/
theorem digestInput_filled {title : Text} {titleBytes : Bytes}
    (htitle : title.utf8 = .ok titleBytes)
    {files : List (Text × Bytes × Bytes)} (hnames : ∀ f ∈ files, f.1.utf8 = .ok f.2.1)
    (hsorted : files.Pairwise fun f g => f.1.codes < g.1.codes)
    (hrelative : ∀ f ∈ files, isAbsoluteName f.1 = false) :
    ∃ calls, (filled (.text title) calls).files = files.map (fun f => (f.1, .bytes f.2.2)) ∧
      (filled (.text title) calls).digestInput =
        .ok (joined (files.map Prod.snd) ++ titleBytes) := by
  let planned : List (Text × FileContent) := files.map fun f => (f.1, .bytes f.2.2)
  have hdistinct : (planned.map Prod.fst).Nodup := by
    rw [List.map_map]
    apply List.pairwise_map.mpr
    apply hsorted.imp
    intro f g hlt heq
    exact absurd (congrArg Text.codes heq) (ne_of_lt hlt)
  have hfiles : (filled (.text title) (planned.map fun f => (.text f.1, f.2))).files = planned := by
    apply files_filled _ _ hdistinct
    intro f hf
    obtain ⟨g, hg, rfl⟩ := List.mem_map.mp hf
    exact hrelative g hg
  refine ⟨planned.map fun f => (.text f.1, f.2), hfiles, ?_⟩
  refine digestInput_eq_ok.mpr ⟨files.map Prod.snd, titleBytes, ?_, ?_, rfl⟩
  · have horder : planned.mergeSort (fun f g => f.1.precedes g.1) = planned := by
      apply List.mergeSort_of_pairwise
      exact List.pairwise_map.mpr (hsorted.imp fun hlt => Text.precedes_iff.mpr (le_of_lt hlt))
    rw [parts, sortedFiles, hfiles, horder, mapM_eq_ok, List.map_map, List.map_map]
    apply List.map_congr_left
    intro f hf
    exact part_eq_ok.mpr ⟨hnames f hf, rfl⟩
  · exact nameBytes_eq_ok.mpr ⟨title, name_filled _ _, htitle⟩

/-! ### Plans that their input identifies -/

/-- Do all plans that are filled by additions and hashed from the same bytes agree with a plan? -/
def IsIdentifiedBy (p : Plan) (input : Bytes) : Prop :=
  ∀ name calls, (filled name calls).digestInput = .ok input → p.Agrees (filled name calls)

/-- Has the circuit no name, and one file, which has none either? -/
structure IsUnnamed (p : Plan) : Prop where
  name : p.name = .text .empty
  files : ∃ content, p.files = [(.empty, content)]

/-- Is there nothing in the bytes that could be a name? No piece of them spells a name of a file
that could be added, and no text stands at their end. -/
structure IsNameless (input : Bytes) : Prop where
  nonempty : input ≠ []
  file : ∀ (name : Text) (bytes : Bytes), name.utf8 = .ok bytes → isAbsoluteName name = false →
    bytes <:+: input → bytes = []
  title : ∀ (name : Text) (bytes : Bytes), name.utf8 = .ok bytes → bytes <:+ input → bytes = []

variable {input : Bytes}

/-- A plan that its input identifies holds what any plan with this input holds. -/
theorem IsIdentifiedBy.holds_iff (h : p.IsIdentifiedBy input)
    (files : List (Text × Bytes × Bytes)) {title : Text} {titleBytes : Bytes}
    (htitle : title.utf8 = .ok titleBytes) (hnames : ∀ f ∈ files, f.1.utf8 = .ok f.2.1)
    (hsorted : files.Pairwise fun f g => f.1.codes < g.1.codes)
    (hrelative : ∀ f ∈ files, isAbsoluteName f.1 = false)
    (hinput : joined (files.map Prod.snd) ++ titleBytes = input) :
    p.name = .text title ∧
      ∀ name content, p.Holds name content ↔ ∃ bytes, (name, bytes, content) ∈ files := by
  obtain ⟨calls, hfiles, hdigest⟩ := digestInput_filled htitle hnames hsorted hrelative
  have hagrees := h _ calls (hinput ▸ hdigest)
  refine ⟨hagrees.name.trans (name_filled _ calls), ?_⟩
  intro name content
  rw [hagrees.files, Holds, hfiles]
  constructor
  · rintro ⟨c, hmem, hc⟩
    obtain ⟨f, hf, heq⟩ := List.mem_map.mp hmem
    cases heq
    cases hc
    exact ⟨f.2.1, hf⟩
  · rintro ⟨bytes, hmem⟩
    exact ⟨.bytes content, List.mem_map.mpr ⟨_, hmem, rfl⟩, rfl⟩

private theorem exists_content (h : p.digestInput = .ok input) {f : Text × FileContent}
    (hf : f ∈ p.files) :
    ∃ content, f.2.toBytes = .ok content := by
  obtain ⟨parts, -, hparts, -, -⟩ := digestInput_eq_ok.mp h
  obtain ⟨⟨bytes, content⟩, -, hpart⟩ := exists_result hparts (p.sortedFiles_perm.mem_iff.mpr hf)
  exact ⟨content, (part_eq_ok.mp hpart).2⟩

private theorem eq_nil_or_singleton (h : ∀ f ∈ p.files, f.1 = .empty) :
    p.files = [] ∨ ∃ content, p.files = [(.empty, content)] := by
  have hdistinct := p.namesDistinct
  generalize p.files = files at h hdistinct
  cases files with
  | nil => exact .inl rfl
  | cons f rest =>
    cases rest with
    | nil => exact .inr ⟨f.2, by rw [← h f (by simp)]⟩
    | cons g rest =>
      have hsame : f.1 = g.1 := (h f (by simp)).trans (h g (by simp)).symm
      simp [hsame] at hdistinct

private theorem isAbsoluteName_empty : isAbsoluteName .empty = false := by decide

private theorem IsIdentifiedBy.isUnnamed (h : p.IsIdentifiedBy input)
    (hp : p.digestInput = .ok input) :
    p.IsUnnamed := by
  obtain ⟨hname, hholds⟩ := h.holds_iff [(.empty, [], input)] Text.utf8_empty
    (by simp) (by simp) (by simp [isAbsoluteName_empty]) (by simp [joined])
  refine ⟨hname, ?_⟩
  have hnone : ∀ f ∈ p.files, f.1 = .empty := by
    intro f hf
    obtain ⟨content, hcontent⟩ := exists_content hp hf
    obtain ⟨_, hmem⟩ := (hholds f.1 content).mp ⟨f.2, hf, hcontent⟩
    exact congrArg Prod.fst (List.mem_singleton.mp hmem)
  rcases eq_nil_or_singleton hnone with hnil | hfiles
  · obtain ⟨c, hmem, -⟩ := (hholds .empty input).mpr ⟨[], by simp⟩
    simp [hnil] at hmem
  · exact hfiles

/-- Nothing in the input of a plan that it identifies can be a name. -/
theorem IsIdentifiedBy.isNameless (h : p.IsIdentifiedBy input) (hp : p.digestInput = .ok input)
    (hunnamed : p.IsUnnamed) : IsNameless input := by
  obtain ⟨content, hfiles⟩ := hunnamed.files
  refine ⟨?_, ?_, ?_⟩
  · rintro rfl
    obtain ⟨-, hholds⟩ := h.holds_iff [] Text.utf8_empty (by simp) .nil (by simp) rfl
    obtain ⟨bytes, hbytes⟩ := exists_content hp (by rw [hfiles]; exact List.mem_singleton_self _)
    obtain ⟨_, hmem⟩ := (hholds .empty bytes).mp ⟨content, by simp [hfiles], hbytes⟩
    cases hmem
  · intro name bytes hname hrelative hpart
    obtain ⟨before, after, rfl⟩ := hpart
    by_contra hne
    have hnonempty : name ≠ .empty := by
      rintro rfl
      exact hne (Except.ok.inj (hname.symm.trans Text.utf8_empty))
    obtain ⟨-, hholds⟩ := h.holds_iff [(.empty, [], before), (name, bytes, after)]
      Text.utf8_empty (by simp [hname]) (by simp [Text.codes_empty_lt hnonempty])
      (by simp [isAbsoluteName_empty, hrelative]) (by simp [joined])
    obtain ⟨c, hmem, -⟩ := (hholds name after).mpr ⟨bytes, by simp⟩
    simp [hfiles, hnonempty] at hmem
  · intro name bytes hname hpart
    obtain ⟨before, rfl⟩ := hpart
    obtain ⟨htitle, -⟩ := h.holds_iff [(.empty, [], before)] hname
      (by simp) (by simp) (by simp [isAbsoluteName_empty]) (by simp [joined])
    cases hunnamed.name.symm.trans htitle
    exact Except.ok.inj (hname.symm.trans Text.utf8_empty)

/-- A plan without names is hashed from the content of its file alone. -/
theorem IsUnnamed.holds_iff (h : p.IsUnnamed) (hp : p.digestInput = .ok input) {name : Text}
    {content : Bytes} : p.Holds name content ↔ name = .empty ∧ content = input := by
  obtain ⟨c, hfiles⟩ := h.files
  have hinput : c.toBytes = .ok input := by
    obtain ⟨bytes, hbytes⟩ := exists_content hp (by rw [hfiles]; exact List.mem_singleton_self _)
    have htitle : p.nameBytes = .ok [] := nameBytes_eq_ok.mpr ⟨_, h.name, Text.utf8_empty⟩
    cases hp.symm.trans (digestInput_of_file hfiles Text.utf8_empty hbytes htitle)
    simpa using hbytes
  unfold Holds
  rw [hfiles]
  constructor
  · rintro ⟨c', hmem, hc⟩
    cases List.mem_singleton.mp hmem
    exact ⟨rfl, Except.ok.inj (hc.symm.trans hinput)⟩
  · rintro ⟨rfl, rfl⟩
    exact ⟨c, List.mem_singleton_self _, hinput⟩

private theorem isInfix_joined {parts : List (Bytes × Bytes)} {f : Bytes × Bytes} (h : f ∈ parts)
    (rest : Bytes) : f.1 <:+: joined parts ++ rest := by
  obtain ⟨before, after, rfl⟩ := List.append_of_mem h
  refine ⟨joined before, f.2 ++ joined after ++ rest, ?_⟩
  simp [joined]

/-- If nothing in the input of a plan can be a name, the plan has none. -/
theorem IsNameless.isUnnamed (h : IsNameless input) {q : Plan} (hq : q.digestInput = .ok input)
    (hrelative : ∀ f ∈ q.files, isAbsoluteName f.1 = false) : q.IsUnnamed := by
  obtain ⟨parts, title, hparts, htitle, hinput⟩ := digestInput_eq_ok.mp hq
  obtain ⟨name, hname, hutf8⟩ := nameBytes_eq_ok.mp htitle
  have hnil : title = [] := h.title name title hutf8 ⟨joined parts, hinput⟩
  subst hnil
  have hnone : ∀ f ∈ q.files, f.1 = .empty := by
    intro f hf
    obtain ⟨⟨bytes, content⟩, hmem, hpart⟩ :=
      exists_result hparts (q.sortedFiles_perm.mem_iff.mpr hf)
    have hbytes := (part_eq_ok.mp hpart).1
    have hpiece : bytes <:+: input := hinput ▸ isInfix_joined hmem []
    rw [h.file f.1 bytes hbytes (hrelative f hf) hpiece] at hbytes
    exact Text.utf8_inj hbytes Text.utf8_empty
  refine ⟨by rw [hname, Text.utf8_inj hutf8 Text.utf8_empty], ?_⟩
  rcases eq_nil_or_singleton hnone with hempty | hfiles
  · rw [Plan.parts, sortedFiles, hempty, List.mergeSort_nil] at hparts
    cases hparts
    exact absurd hinput.symm h.nonempty
  · exact hfiles

/-- Of two plans that are hashed from the same bytes, both agree exactly if they cut these bytes at
the same places. A plan is the only one that is hashed from its bytes, up to agreement, exactly if
it has no names and nothing in the content of its file can be a name. -/
theorem digestInput_identifies_iff (name : Value) (calls : List (Value × FileContent))
    {input : Bytes} (h : (filled name calls).digestInput = .ok input) :
    ((filled name calls).IsIdentifiedBy input ↔
        (filled name calls).IsUnnamed ∧ IsNameless input) ∧
      ∀ name' calls', (filled name' calls').digestInput = .ok input →
        ((filled name calls).Agrees (filled name' calls') ↔
          (filled name calls).cuts = (filled name' calls').cuts) := by
  refine ⟨⟨?_, ?_⟩, fun name' calls' h' => agrees_iff_cuts h h'⟩
  · intro hidentified
    have hunnamed := hidentified.isUnnamed h
    exact ⟨hunnamed, hidentified.isNameless h hunnamed⟩
  · rintro ⟨hunnamed, hnameless⟩ name' calls' h'
    have hunnamed' := hnameless.isUnnamed h' (isAbsoluteName_of_filled name' calls')
    refine ⟨hunnamed.name.trans hunnamed'.name.symm, ?_⟩
    intro t content
    rw [hunnamed.holds_iff h, hunnamed'.holds_iff h']

private theorem isNameless_highByte : IsNameless [255] := by
  have hnone : ∀ (t : Text) (bytes : Bytes), t.utf8 = .ok bytes → bytes <:+: [255] →
      bytes = [] := by
    intro t bytes ht hpiece
    rcases (List.infix_singleton_iff _ _).mp hpiece with rfl | rfl
    · rfl
    · obtain ⟨s, -, hs⟩ := Text.utf8_eq_ok.mp ht
      have hbytes : s.toByteArray = ⟨#[255]⟩ := ByteArray.ext (Array.ext' hs)
      have hvalid := ByteArray.validateUTF8_eq_true_iff.mpr s.isValidUTF8
      rw [hbytes] at hvalid
      exact absurd hvalid (by decide)
  refine ⟨by decide, fun t bytes ht _ => hnone t bytes ht, fun t bytes ht hend => ?_⟩
  exact hnone t bytes ht hend.isInfix

/-- The plan of a circuit with a file of one text, each under its name. -/
def ofText (title name content : String) : Plan :=
  filled (.text title) [(.text name, .text content)]

private theorem files_ofText {title name content : String} (h : isAbsoluteName name = false) :
    (ofText title name content).files = [(↑name, .text content)] :=
  files_filled (.text title) [(↑name, .text content)] (by simp) (by simp [h])

private theorem digestInput_ofText {title name content : String} (h : isAbsoluteName name = false) :
    (ofText title name content).digestInput =
      .ok (Bytes.ofString name ++ Bytes.ofString content ++ Bytes.ofString title) := by
  apply digestInput_of_file (files_ofText h) (Text.utf8_ofString name)
  · exact Text.utf8_ofString content
  · exact nameBytes_eq_ok.mpr ⟨title, name_filled _ _, Text.utf8_ofString title⟩

/-- The plan of one file with a byte that occurs in no text is the only one with its input. -/
theorem highByte_identified :
    (filled (.text .empty) [(.text .empty, .bytes [255])]).digestInput = .ok [255] ∧
      (filled (.text .empty) [(.text .empty, .bytes [255])]).IsIdentifiedBy [255] := by
  have hfiles : (filled (.text .empty) [(.text .empty, .bytes [255])]).files =
      [(.empty, .bytes [255])] :=
    files_filled _ [(.empty, .bytes [255])] (by simp) (by simp [isAbsoluteName_empty])
  have hinput : (filled (.text .empty) [(.text .empty, .bytes [255])]).digestInput = .ok [255] :=
    digestInput_of_file hfiles Text.utf8_empty rfl rfl
  refine ⟨hinput, (digestInput_identifies_iff _ _ hinput).1.mpr ⟨?_, isNameless_highByte⟩⟩
  exact ⟨name_filled _ _, _, hfiles⟩

/-- A letter at the end of a name or at the start of a content: the plans differ, their input does
not. -/
theorem movedLetter_sameInput :
    (ofText "top" "a.c" "x1").digestInput = (ofText "top" "a.cx" "1").digestInput ∧
      ¬(ofText "top" "a.c" "x1").Agrees (ofText "top" "a.cx" "1") := by
  have hc : isAbsoluteName "a.c" = false := by decide
  have hcx : isAbsoluteName "a.cx" = false := by decide
  refine ⟨by rw [digestInput_ofText hc, digestInput_ofText hcx]; rfl, fun h => ?_⟩
  obtain ⟨c, hmem, -⟩ := (h.files "a.c" (Bytes.ofString "x1")).mp
    ⟨.text "x1", by rw [files_ofText hc]; exact List.mem_singleton_self _, Text.utf8_ofString "x1"⟩
  rw [files_ofText hcx, List.mem_singleton] at hmem
  have hnames : ("a.c" : String) = "a.cx" := Text.ofString_inj.mp (congrArg Prod.fst hmem)
  exact absurd hnames (by decide)

end Plan

end Latchwork

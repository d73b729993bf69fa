import Latchwork.Proofs.DigestInput

/-!
# The order of addition

Files can be added to a plan in any order, and a content can be given as a text or as the bytes of
this text. The digest and the archive show neither: both go through the files in order of their
names, which are distinct, and use no more of a content than its bytes.
-/

namespace Latchwork

/-! ### Contents with the same bytes -/

namespace FileContent

/-- Are two contents the same, or is one of them the bytes of the other's text? -/
inductive SameBytes : FileContent → FileContent → Prop where
  | same (c : FileContent) : SameBytes c c
  | encoded {t : Text} {b : Bytes} (h : t.utf8 = .ok b) : SameBytes (.text t) (.bytes b)
  | decoded {t : Text} {b : Bytes} (h : t.utf8 = .ok b) : SameBytes (.bytes b) (.text t)

variable {c d : FileContent}

private theorem SameBytes.toBytes_eq (h : c.SameBytes d) : c.toBytes = d.toBytes := by
  cases h with
  | same => rfl
  | encoded h => exact h
  | decoded h => exact h.symm

private theorem SameBytes.archived_eq (h : c.SameBytes d) (name : Text) :
    c.archived name = d.archived name := by
  have hbytes := h.toBytes_eq
  cases h with
  | same => rfl
  | encoded => simp only [archived, hbytes]
  | decoded => simp only [archived, hbytes]

end FileContent

namespace Plan

variable {name : Value} {files others : List (Text × FileContent)}

/-! ### Files in order of their names -/

private theorem pairwise_lt_sortedFiles (p : Plan) :
    p.sortedFiles.Pairwise fun f g => f.1.codes < g.1.codes := by
  apply (p.pairwise_sortedFiles.and (List.pairwise_map.mp p.nodup_sortedFiles)).imp
  rintro f g ⟨hle, hne⟩
  exact lt_of_le_of_ne hle fun heq => hne (Text.codes_inj heq)

/-- The members of the archive of a plan, in order of their names. -/
def members (p : Plan) : Except Error (List ArchiveMember) :=
  p.sortedFiles.mapM fun f => f.2.archived f.1

private theorem archive_eq (p : Plan) : p.archive = p.members.map Archive.bytes := by
  unfold archive members
  cases p.sortedFiles.mapM fun f => f.2.archived f.1 <;> rfl

/-! ### Files in another order -/

/-- The plan that is left by adding files one after another. -/
def withFiles (name : Value) (files : List (Text × FileContent)) : Plan :=
  filled name (files.map fun f => (.text f.1, f.2))

/-- Are files others in some order, where a text may stand for its bytes? -/
def IsReordered (files others : List (Text × FileContent)) : Prop :=
  ∃ given, files.Perm given ∧
    List.Forall₂ (fun f g => f.1 = g.1 ∧ f.2.SameBytes g.2) given others

private theorem IsReordered.map_perm (h : IsReordered files others) {α : Type}
    {g : Text × FileContent → α}
    (hg : ∀ name c d, c.SameBytes d → g (name, c) = g (name, d)) :
    (files.map g).Perm (others.map g) := by
  obtain ⟨given, hperm, hsame⟩ := h
  have hmap : given.map g = others.map g := by
    rw [← List.forall₂_eq_eq_eq, List.forall₂_map_left_iff, List.forall₂_map_right_iff]
    apply hsame.imp
    rintro ⟨name, c⟩ ⟨name', d⟩ ⟨rfl, hcontent⟩
    exact hg name c d hcontent
  exact hmap ▸ hperm.map g

private theorem IsReordered.nodup (h : IsReordered files others)
    (hdistinct : (files.map Prod.fst).Nodup) :
    (others.map Prod.fst).Nodup :=
  (h.map_perm fun _ _ _ _ => rfl).nodup_iff.mp hdistinct

/-- A pass over the files in order of their names that uses no more of a content than its bytes has
one result for all orders of addition. -/
theorem IsReordered.mapM_sortedFiles_eq (h : IsReordered files others)
    (hdistinct : (files.map Prod.fst).Nodup) {α : Type}
    {g : Text × FileContent → Except Error α}
    (hg : ∀ name c d, c.SameBytes d → g (name, c) = g (name, d)) :
    (withFiles name files).sortedFiles.mapM g = (withFiles name others).sortedFiles.mapM g := by
  let keyed : Text × FileContent → Text × Except Error α := fun f => (f.1, g f)
  have hadded : ∀ {fs : List (Text × FileContent)}, (fs.map Prod.fst).Nodup →
      (withFiles name fs).files.map keyed = (fs.map keyed).filter fun k => !isAbsoluteName k.1 := by
    intro fs hfs
    rw [withFiles, files_filled_eq_filter name fs hfs, List.filter_map]
    rfl
  have hperm : ((withFiles name files).files.map keyed).Perm
      ((withFiles name others).files.map keyed) := by
    rw [hadded hdistinct, hadded (h.nodup hdistinct)]
    apply List.Perm.filter
    apply h.map_perm
    intro name c d hcontent
    exact Prod.ext rfl (hg name c d hcontent)
  have hpass (r : Plan) : r.sortedFiles.mapM g = (r.sortedFiles.map keyed).mapM Prod.snd := by
    rw [List.mapM_map]
    rfl
  rw [hpass, hpass, map_sortedFiles_eq hperm]

private theorem nameBytes_withFiles (name : Value) (files others : List (Text × FileContent)) :
    (withFiles name files).nameBytes = (withFiles name others).nameBytes := by
  unfold nameBytes withFiles
  rw [name_filled, name_filled]

private theorem IsReordered.digestInput_eq (h : IsReordered files others)
    (hdistinct : (files.map Prod.fst).Nodup) (name : Value) :
    (withFiles name files).digestInput = (withFiles name others).digestInput := by
  unfold digestInput
  rw [nameBytes_withFiles name files others, h.mapM_sortedFiles_eq hdistinct]
  intro name c d hcontent
  simp only [hcontent.toBytes_eq]

private theorem IsReordered.members_eq (h : IsReordered files others)
    (hdistinct : (files.map Prod.fst).Nodup) (name : Value) :
    (withFiles name files).members = (withFiles name others).members :=
  h.mapM_sortedFiles_eq hdistinct fun name _ _ hcontent => hcontent.archived_eq name

/-- Plans of one circuit with the same files have the same digest of every size, from the same
bytes, and archives with the same members, in whatever order the files were added and whether a
content was given as a text or in bytes. Both are made from the files that could be added, in
strictly ascending order of their names. -/
theorem digest_and_archive_of_isReordered (name : Value) (files others : List (Text × FileContent))
    (hdistinct : (files.map Prod.fst).Nodup) (h : IsReordered files others) :
    (withFiles name files).digestInput = (withFiles name others).digestInput ∧
    (∀ size, (withFiles name files).digest size = (withFiles name others).digest size) ∧
    (withFiles name files).members = (withFiles name others).members ∧
    (withFiles name files).archive = (withFiles name others).archive ∧
    ∃ sorted : List (Text × FileContent),
      sorted.Perm (files.filter fun f => !isAbsoluteName f.1) ∧
      sorted.Pairwise (fun f g => f.1.codes < g.1.codes) ∧
      (∀ input, (withFiles name files).digestInput = .ok input ↔
        ∃ parts title, sorted.mapM part = .ok parts ∧
          (withFiles name files).nameBytes = .ok title ∧ joined parts ++ title = input) ∧
      (withFiles name files).members = sorted.mapM fun f => f.2.archived f.1 := by
  have hinput := h.digestInput_eq hdistinct name
  have hmembers := h.members_eq hdistinct name
  refine ⟨hinput, fun size => ?_, hmembers, ?_, (withFiles name files).sortedFiles, ?_,
    pairwise_lt_sortedFiles _, fun input => digestInput_eq_ok, rfl⟩
  · unfold digest
    rw [hinput]
  · rw [archive_eq, archive_eq, hmembers]
  · rw [← files_filled_eq_filter name files hdistinct]
    exact sortedFiles_perm _

/-- Three files, one of which cannot be added. -/
def givenFiles : List (Text × FileContent) :=
  [("b.c", .text "b"), ("/", .text ""), ("a.c", .text "ä")]

/-- The same files in another order, with one of the texts in bytes. -/
def givenFilesReordered : List (Text × FileContent) :=
  [("a.c", .bytes [0xc3, 0xa4]), ("b.c", .text "b"), ("/", .text "")]

theorem givenFiles_unobserved :
    (givenFiles.map Prod.fst).Nodup ∧ IsReordered givenFiles givenFilesReordered ∧
      (withFiles (.text "top") givenFiles).digestInput =
        (withFiles (.text "top") givenFilesReordered).digestInput ∧
      (withFiles (.text "top") givenFiles).members =
        (withFiles (.text "top") givenFilesReordered).members := by
  have hdistinct : (givenFiles.map Prod.fst).Nodup := by decide
  have hreordered : IsReordered givenFiles givenFilesReordered := by
    have hperm : (givenFiles.take 2 ++ givenFiles.drop 2).Perm
        (givenFiles.drop 2 ++ givenFiles.take 2) := List.perm_append_comm
    refine ⟨_, hperm, ?_⟩
    exact .cons ⟨rfl, .encoded rfl⟩ (.cons ⟨rfl, .same _⟩ (.cons ⟨rfl, .same _⟩ .nil))
  obtain ⟨hinput, -, hmembers, -⟩ :=
    digest_and_archive_of_isReordered (.text "top") givenFiles givenFilesReordered hdistinct
      hreordered
  exact ⟨hdistinct, hreordered, hinput, hmembers⟩

end Plan

end Latchwork

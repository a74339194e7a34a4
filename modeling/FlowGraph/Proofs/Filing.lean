import FlowGraph.Files

/-!
Writing files. The way on which a file was written can be gone again, so the file is found with the text that was written, and it
can be written again.
-/
namespace FlowGraph.Files

/-- The folders are still there. -/
def Grows (f g : Files) : Prop := ∀ place, f.isFolder place = true → g.isFolder place = true

theorem Grows.refl (f : Files) : Grows f f := fun _ h => h

theorem Grows.trans {f g h : Files} (hfg : Grows f g) (hgh : Grows g h) : Grows f h :=
  fun place hp => hgh place (hfg place hp)

/-- A step that could be taken can still be taken. -/
theorem Grows.enter {f g : Files} (h : Grows f g) {place next : List String} {step : String}
    (hstep : f.enter place step = some next) : g.enter place step = some next := by
  unfold Files.enter at hstep ⊢
  split at hstep
  · rename_i hidle
    rw [if_pos hidle, hstep]
  · rename_i hidle
    rw [if_neg hidle]
    split at hstep
    · rename_i hup
      rw [if_pos hup, hstep]
    · rename_i hup
      rw [if_neg hup]
      split at hstep
      · rename_i hfolder
        rw [if_pos (h _ hfolder), hstep]
      · cases hstep

theorem isFolder_cons (f : Files) (place p : List String) :
    ({ f with folders := place :: f.folders } : Files).isFolder p = true ↔ p = place ∨ f.isFolder p = true := by
  simp only [isFolder, Bool.or_eq_true, List.contains_cons, beq_iff_eq]
  exact or_left_comm

/-- After a step that makes a folder where there is none, the step can be taken. -/
theorem enterNew_spec {f g : Files} {place next : List String} {step : String}
    (h : f.enterNew place step = (g, some next)) : Grows f g ∧ g.enter place step = some next := by
  unfold enterNew at h
  split at h
  · rename_i henter
    obtain ⟨rfl, hnext⟩ := Prod.mk.inj h
    rw [← hnext]
    exact ⟨.refl f, henter⟩
  · rename_i hnone
    split at h
    · cases h
    · obtain ⟨rfl, hnext⟩ := Prod.mk.inj h
      cases hnext
      refine ⟨fun p hp => (isFolder_cons f _ p).2 (.inr hp), ?_⟩
      -- The step is no idle one and does not go up, as it could be taken then.
      unfold Files.enter at hnone ⊢
      split at hnone
      · cases hnone
      · rename_i hidle
        split at hnone
        · cases hnone
        · rename_i hup
          rw [if_neg hidle, if_neg hup, if_pos ((isFolder_cons f _ _).2 (.inl rfl))]

/-- The way to a folder that was made can be gone. -/
theorem makeFolders_spec {f g : Files} {place last : List String} {steps : List String}
    (h : f.makeFolders place steps = (g, some last)) : Grows f g ∧ steps.foldlM g.enter place = some last := by
  induction steps generalizing f place with
  | nil =>
    obtain ⟨rfl, hlast⟩ := Prod.mk.inj h
    exact ⟨.refl f, hlast⟩
  | cons step steps ih =>
    unfold makeFolders at h
    split at h
    · rename_i f' next hstep
      obtain ⟨hgrows, hrest⟩ := ih h
      obtain ⟨hgrow, henter⟩ := enterNew_spec hstep
      refine ⟨hgrow.trans hgrows, ?_⟩
      rw [List.foldlM_cons, hgrows.enter henter]
      exact hrest
    · cases h

/-- No folder is made on a way that can be gone. -/
theorem makeFolders_eq {f : Files} {place last : List String} {steps : List String}
    (h : steps.foldlM f.enter place = some last) : f.makeFolders place steps = (f, some last) := by
  induction steps generalizing place with
  | nil => exact Prod.ext rfl h
  | cons step steps ih =>
    rw [List.foldlM_cons] at h
    obtain ⟨next, hnext, hrest⟩ := Option.bind_eq_some_iff.1 h
    rw [makeFolders, enterNew, hnext]
    exact ih hrest

/-- The place of a file that can be written. -/
theorem prepare_spec {f g : Files} {path : String} {place : List String} (h : f.prepare path = (g, some place)) :
    path.utf8ByteSize ≤ pathLimit ∧ namesFile (split path).2 = true ∧ g.isFolder place = false ∧
      ∃ folder, (split path).1.foldlM g.enter (start path) = some folder ∧ place = (split path).2 :: folder := by
  unfold prepare at h
  dsimp only at h
  split at h
  · cases h
  · rename_i hsize
    split at h
    · cases h
    · rename_i f' folder hmade
      obtain ⟨rfl, hplace⟩ := Prod.mk.inj h
      split at hplace
      · rename_i hcan
        cases hplace
        rw [Bool.and_eq_true, Bool.not_eq_true'] at hcan
        exact ⟨Nat.not_lt.1 hsize, hcan.1, hcan.2, folder, (makeFolders_spec hmade).2, rfl⟩
      · cases hplace

/-- A file that can be written is found with what was written, and can be written again. -/
theorem write_spec {f : Files} {path : String} (h : f.canWrite path = true) (text : String) :
    (f.write path text).read? path = some text ∧ (f.write path text).canWrite path = true := by
  obtain ⟨hrelative, hplace⟩ := Bool.and_eq_true_iff.1 h
  rw [Bool.not_eq_true'] at hrelative
  obtain ⟨place, hplace⟩ := Option.isSome_iff_exists.1 hplace
  obtain ⟨g, hprepare⟩ : ∃ g, f.prepare path = (g, some place) := ⟨_, Prod.ext rfl hplace⟩
  obtain ⟨hsize, hname, hfree, folder, hway, hfolder⟩ := prepare_spec hprepare
  have hwritten : f.write path text = { g with texts := g.texts.set place text } := by
    rw [write, if_neg (by simp [hrelative]), put, hprepare]
  have hfound : (split path).1.foldlM (f.write path text).enter (start path) = some folder := by
    rw [hwritten]
    exact hway
  constructor
  · unfold read?
    dsimp only
    rw [if_pos (by simp [hsize, hname]), hfound, hwritten]
    simp [hfolder]
  · unfold canWrite prepare
    dsimp only
    rw [hrelative, if_neg (Nat.not_lt.2 hsize), makeFolders_eq hfound]
    have hfree' : (f.write path text).isFolder ((split path).2 :: folder) = false := by
      rw [hwritten, ← hfolder]
      exact hfree
    simp [hname, hfree']

end FlowGraph.Files

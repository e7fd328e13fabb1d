import LayeredConfig.Proofs.Cache.Answer
import LayeredConfig.Proofs.Path.Respelling

/-!
# What is written can be read

A path that a file was written to leads to the file: it ends in a name, so the walk along it still
passes only directories, which writing leaves as they are.
-/

namespace LayeredConfig

/-- The last of the pieces at which a text is split is empty only if the text ends there. -/
theorem Text.getLast?_splitAt {p : Char → Bool} {s : List Char} (hs : s ≠ [])
    (hlast : ∀ c ∈ s.getLast?, p c = false) : (Text.splitAt p s).getLast? ≠ some [] := by
  induction s with
  | nil => exact absurd rfl hs
  | cons c rest ih =>
    cases rest with
    | nil => simp [Text.splitAt, hlast c rfl]
    | cons d more =>
      have hrest := ih (List.cons_ne_nil d more) fun e he =>
        hlast e (by rwa [List.getLast?_cons_cons])
      obtain ⟨piece, pieces, hpieces⟩ := List.exists_cons_of_ne_nil
        (Text.splitAt_eq_splitOnP p (d :: more) ▸ List.splitOnP_ne_nil p (d :: more))
      rw [Text.splitAt, hpieces]
      rw [hpieces] at hrest
      split
      · rwa [List.getLast?_cons_cons]
      · cases pieces with
        | nil => simp
        | cons next pieces => rwa [List.getLast?_cons_cons] at hrest ⊢

namespace World

variable {w w' : World} {p : FilePath} {q r : Place} {t : Instant} {bytes : ByteArray}

/-- A walk that ends where there is no directory reaches the file that is put there, unless it ends
in a slash behind a missing name. -/
theorem walk_put_file {pieces : List (List Char)} {node : Option Node}
    (h : w.walk q pieces = .ok (r, node)) (hfile : ∀ t, node ≠ some (.directory t))
    (hlast : node = none → pieces.getLast? ≠ some []) :
    (w.put r (.file bytes t)).walk q pieces = .ok (r, some (.file bytes t)) := by
  have hnode : w.node? r = node := (node_of_walk h).symm
  have hr : r ≠ [] := by
    rintro rfl
    exact hfile w.directoryTime hnode.symm
  have hput : (w.put r (.file bytes t)).node? r = some (.file bytes t) := by
    rw [node?_put hr, if_pos rfl]
  have hkept {place : Place} {u : Instant} (hplace : w.node? place = some (.directory u)) :
      (w.put r (.file bytes t)).node? place = some (.directory u) := by
    rw [node?_put hr, if_neg, hplace]
    rintro rfl
    exact hfile u (hnode.symm.trans hplace)
  induction pieces generalizing q with
  | nil =>
    obtain rfl : q = r := congrArg Prod.fst (Except.ok.inj h)
    rw [walk, hput]
  | cons piece rest ih =>
    have hrest : node = none → rest.getLast? ≠ some [] := by
      intro hnone hend
      refine hlast hnone ?_
      rw [List.getLast?_cons, hend]
      rfl
    obtain ⟨⟨u, hdir⟩, ⟨back, hturns, hwalk⟩ | ⟨henters, hwalk⟩⟩ := walk_cons_ok h
    · rw [walk_turns (hkept hdir) hturns, ih hwalk hrest]
    · rw [walk_enters (hkept hdir) henters]
      rcases hwalk with ⟨hthere, hwalk⟩ | ⟨-, hslashes, rfl, rfl⟩
      · have hthere' : ((w.put r (.file bytes t)).node? (q ++ [String.ofList piece])).isSome := by
          rw [node?_put hr]
          split
          · rfl
          · exact hthere
        rw [if_pos hthere', ih hwalk hrest]
      · -- No slash follows the missing name.
        have hnil : rest = [] := by
          by_contra hne
          have hempty := List.all_eq_true.1 hslashes _ (List.getLast_mem hne)
          exact hrest rfl (by rw [List.getLast?_eq_some_getLast hne, List.isEmpty_iff.1 hempty])
        rw [hput, Option.isSome_some, if_pos rfl, hnil, walk, hput]

/-- What was written to a file is its content. -/
theorem content_of_write (h : w.write p bytes = (.ok (), w')) : w'.content p = .ok bytes := by
  obtain ⟨place, node, hlocate, hfile, rfl⟩ := write_ok h
  obtain ⟨hempty, hwalk⟩ := walk_of_locate hlocate
  have hlast : node = none →
      (FilePath.absolute w.directory p).pieces.getLast? ≠ some [] := by
    rintro rfl
    rw [FilePath.absolute, FilePath.getLast?_pieces_join]
    refine Text.getLast?_splitAt (by simpa using hempty) fun c hc => ?_
    rw [beq_eq_false_iff_ne]
    rintro rfl
    have hslash : (p.text.toList.getLast? == some '/') = true := by rw [hc]; rfl
    unfold write at h
    rw [hlocate] at h
    dsimp only at h
    rw [if_pos hslash] at h
    cases h
  have hlocate' : (w.put place (.file bytes w.now)).locate p =
      .ok (place, some (.file bytes w.now)) := by
    obtain ⟨hzero, hlong⟩ := fits_of_locate hlocate
    rw [locate, if_neg (by simpa using hempty), if_neg (by simpa using hzero),
      if_neg (Nat.not_le.2 hlong)]
    exact walk_put_file hwalk hfile hlast
  rw [content, hlocate']

end World

end LayeredConfig

import GuardedList.Proofs.Copies

/-!
# What becomes of a copy

Every copy that is made to be stored in a list is at any time stored at one position, or it was
disposed of, or it is gone without a disposal; the last only when the panic of another disposal let
it go (`Episode.Loses`). Only a panic during an update lets a copy be disposed of again (`Spared`).

The account of one copy (`Account`) follows what the steps do about it, one after another
(`Account.step`), and so holds at the end of every session (`Ledger.run`).
-/

namespace GuardedList

variable {ω σ β : Type}

/-- The elements after some episodes that began with an empty list. -/
def reached {α : Type} (episodes : List (Episode α)) : Option (List α) :=
  episodes.foldl (fun _ episode => episode.after) (some [])

/-- Some step made the copy with this number in order to store it. -/
def Made (episodes : List (Episode (Marked β))) (serial : Nat) : Prop :=
  ∃ episode ∈ episodes, episode.Makes serial

/-- Some step handed the copy with this number to the caller. -/
def Handed (episodes : List (Episode (Marked β))) (serial : Nat) : Prop :=
  ∃ episode ∈ episodes, episode.Hands serial

/-- The disposals of the copy with this number in order, each with its episode and what it left. -/
def disposals (episodes : List (Episode (Marked β))) (serial : Nat) :
    List (Episode (Marked β) × Residue (Marked β)) :=
  episodes.flatMap fun episode => (episode.disposals serial).map (episode, ·)

/-- A disposal that was not the end of the copy: an update of its position called it, and it
panicked. -/
def Spared (serial : Nat) (disposal : Episode (Marked β) × Residue (Marked β)) : Prop :=
  disposal.1.Updates serial ∧ disposal.2.panic ≠ none

/-- The account of one copy. -/
inductive Account (episodes : List (Episode (Marked β))) (serial : Nat) : Prop
  | unmade (hmade : ¬ Made episodes serial) (hdisposals : disposals episodes serial = [])
      (hcopies : copies serial (reached episodes) = 0)
  | stored (hmade : Made episodes serial) (hkept : ¬ Handed episodes serial)
      (hspared : ∀ disposal ∈ disposals episodes serial, Spared serial disposal)
      (hcopies : copies serial (reached episodes) = 1)
  | released (hmade : Made episodes serial) (hkept : ¬ Handed episodes serial)
      (earlier : List (Episode (Marked β) × Residue (Marked β)))
      (final : Episode (Marked β) × Residue (Marked β))
      (hdisposals : disposals episodes serial = earlier ++ [final])
      (hspared : ∀ disposal ∈ earlier, Spared serial disposal)
      (hcopies : copies serial (reached episodes) = 0)
  | lost (hmade : Made episodes serial) (hkept : ¬ Handed episodes serial)
      (hdisposals : disposals episodes serial = [])
      (hloses : ∃ episode ∈ episodes, episode.Loses serial)
      (hcopies : copies serial (reached episodes) = 0)

section Step

variable {episodes : List (Episode (Marked β))} {episode : Episode (Marked β)} {serial : Nat}

@[simp] theorem reached_append_singleton {α : Type} (episodes : List (Episode α))
    (episode : Episode α) : reached (episodes ++ [episode]) = episode.after := by
  simp [reached]

@[simp] theorem made_append_singleton :
    Made (episodes ++ [episode]) serial ↔ Made episodes serial ∨ episode.Makes serial := by
  simp [Made, or_and_right, exists_or]

@[simp] theorem handed_append_singleton :
    Handed (episodes ++ [episode]) serial ↔ Handed episodes serial ∨ episode.Hands serial := by
  simp [Handed, or_and_right, exists_or]

@[simp] theorem disposals_append_singleton :
    disposals (episodes ++ [episode]) serial =
      disposals episodes serial ++ (episode.disposals serial).map (episode, ·) := by
  simp [disposals]

theorem Account.copies_le_one (h : Account episodes serial) :
    copies serial (reached episodes) ≤ 1 := by
  cases h <;> omega

theorem Account.made_of_copies_pos (h : Account episodes serial)
    (hpos : 0 < copies serial (reached episodes)) : Made episodes serial := by
  cases h with
  | unmade _ _ hcopies => omega
  | stored hmade => exact hmade
  | released hmade => exact hmade
  | lost hmade => exact hmade

/-- A copy that was not made yet is made now or remains unmade. -/
theorem Account.step_of_not_made (hmade : ¬ Made episodes serial)
    (hdisposals : disposals episodes serial = [])
    (hcopies : copies serial (reached episodes) = 0)
    (hbefore : episode.before = reached episodes) (hdeals : episode.Deals serial)
    (hkept : episode.Makes serial → ¬ Handed (episodes ++ [episode]) serial) :
    Account (episodes ++ [episode]) serial := by
  rw [← hbefore] at hcopies
  cases hdeals with
  | untouched hmakes hnone hsame =>
    exact .unmade (by simp [hmade, hmakes]) (by simp [hdisposals, hnone]) (by simp; omega)
  | stored hmakes hnone hstored =>
    exact .stored (by simp [hmakes]) (hkept hmakes) (by simp [hdisposals, hnone]) (by simp; omega)
  | withdrawn hmakes residue hreleased hsame =>
    exact .released (by simp [hmakes]) (hkept hmakes) [] (episode, residue)
      (by simp [hdisposals, hreleased]) (by simp) (by simp; omega)
  | dropped hmakes hnone hsame hloses =>
    exact .lost (by simp [hmakes]) (hkept hmakes) (by simp [hdisposals, hnone])
      ⟨episode, by simp, hloses⟩ (by simp; omega)
  | released _ _ _ htaken => omega
  | spared _ _ _ hupdates =>
    obtain ⟨_, _, _, _, -, hcontents, helement, hserial⟩ := hupdates
    have := copies_pos_of_getElem? helement hserial
    rw [hcontents] at hcopies
    omega
  | abandoned _ _ htaken => omega

/-- A copy that is stored stays, is disposed of, or is abandoned. -/
theorem Account.step_of_stored (hmade : Made episodes serial)
    (hspared : ∀ disposal ∈ disposals episodes serial, Spared serial disposal)
    (hcopies : copies serial (reached episodes) = 1)
    (hbefore : episode.before = reached episodes) (hdeals : episode.Deals serial)
    (hmakes : ¬ episode.Makes serial) (hkept : ¬ Handed (episodes ++ [episode]) serial) :
    Account (episodes ++ [episode]) serial := by
  have hmade' : Made (episodes ++ [episode]) serial := by simp [hmade]
  rw [← hbefore] at hcopies
  cases hdeals with
  | untouched _ hnone hsame =>
    exact .stored hmade' hkept (by simpa [hnone] using hspared) (by simp; omega)
  | released _ residue hreleased htaken =>
    have hlater : disposals (episodes ++ [episode]) serial =
        disposals episodes serial ++ [(episode, residue)] := by
      simp only [disposals_append_singleton, hreleased]
      rfl
    exact .released hmade' hkept _ (episode, residue) hlater hspared (by simp; omega)
  | spared _ residue hreleased hupdates hpanic hsame =>
    refine .stored hmade' hkept ?_ (by simp; omega)
    intro disposal hdisposal
    simp only [disposals_append_singleton, hreleased, List.mem_append, List.map_cons, List.map_nil,
      List.mem_singleton] at hdisposal
    rcases hdisposal with hdisposal | rfl
    · exact hspared disposal hdisposal
    · exact ⟨hupdates, hpanic⟩
  | abandoned _ hnone htaken hloses =>
    -- Disposals that spared the copy so far are all that it will have had.
    rcases List.eq_nil_or_concat (disposals episodes serial) with hnever | ⟨earlier, final, hsome⟩
    · exact .lost hmade' hkept (by simp [hnever, hnone]) ⟨episode, by simp, hloses⟩ (by simp; omega)
    · rw [List.concat_eq_append] at hsome
      refine .released hmade' hkept earlier final (by simp [hnone, hsome])
        (fun disposal hdisposal => hspared disposal ?_) (by simp; omega)
      simp [hsome, hdisposal]
  | stored h => exact absurd h hmakes
  | withdrawn h => exact absurd h hmakes
  | dropped h => exact absurd h hmakes

/-- Nothing is done any more about a copy that is not stored. -/
theorem Episode.Deals.untouched_of_gone (hdeals : episode.Deals serial)
    (hmakes : ¬ episode.Makes serial) (hcopies : copies serial episode.before = 0) :
    episode.disposals serial = [] ∧ copies serial episode.after = 0 := by
  cases hdeals with
  | untouched _ hnone hsame => exact ⟨hnone, by omega⟩
  | spared _ _ _ hupdates =>
    obtain ⟨_, _, _, _, -, hcontents, helement, hserial⟩ := hupdates
    have := copies_pos_of_getElem? helement hserial
    rw [hcontents] at hcopies
    omega
  | stored h => exact absurd h hmakes
  | withdrawn h => exact absurd h hmakes
  | dropped h => exact absurd h hmakes
  | released _ _ _ htaken => omega
  | abandoned _ _ htaken => omega

/-- The account of a copy after one more step. -/
theorem Account.step (h : Account episodes serial) (hbefore : episode.before = reached episodes)
    (hdeals : episode.Deals serial) (hnew : Made episodes serial → ¬ episode.Makes serial)
    (hmakes : episode.Makes serial → ¬ Handed (episodes ++ [episode]) serial)
    (hhands : Made episodes serial → ¬ episode.Hands serial) :
    Account (episodes ++ [episode]) serial := by
  cases h with
  | unmade hmade hdisposals hcopies =>
    exact step_of_not_made hmade hdisposals hcopies hbefore hdeals hmakes
  | stored hmade hkept hspared hcopies =>
    exact step_of_stored hmade hspared hcopies hbefore hdeals (hnew hmade)
      (by simp [hkept, hhands hmade])
  | released hmade hkept earlier final hdisposals hspared hcopies =>
    obtain ⟨hnone, hgone⟩ := hdeals.untouched_of_gone (hnew hmade) (hbefore ▸ hcopies)
    exact .released (by simp [hmade]) (by simp [hkept, hhands hmade]) earlier final
      (by simp [hdisposals, hnone]) hspared (by simpa using hgone)
  | lost hmade hkept hdisposals hloses hcopies =>
    obtain ⟨hnone, hgone⟩ := hdeals.untouched_of_gone (hnew hmade) (hbefore ▸ hcopies)
    obtain ⟨loser, hmember, hloses⟩ := hloses
    exact .lost (by simp [hmade]) (by simp [hkept, hhands hmade]) (by simp [hdisposals, hnone])
      ⟨loser, by simp [hmember], hloses⟩ (by simpa using hgone)

end Step

/-- The accounts of all copies. -/
structure Ledger (episodes : List (Episode (Marked β))) : Prop where
  account (serial : Nat) : Account episodes serial
  bound {serial : Nat} : Made episodes serial ∨ Handed episodes serial →
    serial < (episodes.flatMap Episode.calls).length

section Run

variable {strategy : Strategy β} {size : Nat} {episodes : List (Episode (Marked β))}

theorem Ledger.nil : Ledger ([] : List (Episode (Marked β))) where
  account serial := .unmade (by simp [Made]) rfl rfl
  bound h := by simp [Made, Handed] at h

theorem ListMachine.before_episode {α : Type} (strategy : Strategy α) (size : Nat)
    (answer : Except LockError Unit) (past : List (HookCall α)) (contents : Option (List α))
    (step : Step α) : (episode strategy size answer past contents step).before = contents := by
  cases step <;> cases contents <;> rfl

/-- A step of the machine keeps the accounts in order. -/
theorem Ledger.step (h : Ledger episodes) (strategy : Strategy β) (size : Nat)
    (answer : Except LockError Unit) (step : Step β) :
    Ledger (episodes ++ [ListMachine.episode strategy.marked size answer
      (episodes.flatMap Episode.calls) (reached episodes) (step.map Marked.plain)]) := by
  have hdraws := fun serial => ListMachine.serial_episode serial strategy size answer
    (episodes.flatMap Episode.calls) (reached episodes) step
  have hdeals := fun serial => ListMachine.deals_episode strategy size answer
    (episodes.flatMap Episode.calls) (h.account serial).copies_le_one
    (fun hpos => h.bound (.inl ((h.account serial).made_of_copies_pos hpos))) step
  have hbefore := ListMachine.before_episode strategy.marked size answer
    (episodes.flatMap Episode.calls) (reached episodes) (step.map Marked.plain)
  generalize ListMachine.episode strategy.marked size answer (episodes.flatMap Episode.calls)
    (reached episodes) (step.map Marked.plain) = episode at *
  -- A step draws the number of the hook calls so far, and all numbers in the ledger are smaller.
  have hnew : ∀ {serial}, episode.Makes serial ∨ episode.Hands serial →
      ¬ (Made episodes serial ∨ Handed episodes serial) := by
    intro serial hdrawn hknown
    have := ((hdraws serial).1 hdrawn).1
    have := h.bound hknown
    omega
  refine ⟨fun serial => (h.account serial).step hbefore (hdeals serial) ?_ ?_ ?_, ?_⟩
  · intro hmade hmakes
    exact hnew (.inl hmakes) (.inl hmade)
  · intro hmakes hhanded
    rw [handed_append_singleton] at hhanded
    rcases hhanded with hhanded | hhands
    · exact hnew (.inl hmakes) (.inr hhanded)
    · exact (hdraws serial).2 hmakes hhands
  · intro hmade hhands
    exact hnew (.inr hhands) (.inl hmade)
  · intro serial hknown
    rw [List.flatMap_append, List.length_append, List.flatMap_singleton]
    rw [made_append_singleton, handed_append_singleton, or_or_or_comm] at hknown
    rcases hknown with hknown | hdrawn
    · have := h.bound hknown
      omega
    · obtain ⟨hserial, hcalls⟩ := (hdraws serial).1 hdrawn
      have := List.length_pos_iff.2 hcalls
      omega

/-- And so does every run. -/
theorem Ledger.run (h : Ledger episodes) (strategy : Strategy β) (size : Nat)
    {steps : List (Step (Marked β) × Except LockError Unit)}
    (hplain : ∀ pair ∈ steps, ∃ step : Step β, pair.1 = step.map Marked.plain) :
    Ledger (episodes ++ ListMachine.run strategy.marked size steps
      (episodes.flatMap Episode.calls) (reached episodes)) := by
  induction steps generalizing episodes with
  | nil => simpa [ListMachine.run] using h
  | cons pair steps ih =>
    obtain ⟨taken, answer⟩ := pair
    obtain ⟨step, rfl⟩ : ∃ step : Step β, taken = step.map Marked.plain :=
      hplain (taken, answer) (.head _)
    have hrest := ih (h.step strategy size answer step)
      (fun pair hpair => hplain pair (.tail _ hpair))
    simpa [ListMachine.run] using hrest

end Run

section Session

variable {lock : Lock ω σ} {free : σ → Prop} {strategy : Strategy β} {size : Nat}

variable [Journal ω]

end Session

end GuardedList

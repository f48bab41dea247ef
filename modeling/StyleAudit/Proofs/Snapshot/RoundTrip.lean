import StyleAudit.Proofs.Snapshot.Codec

/-!
# A snapshot gives back the registry it keeps

A codec that writes and reads messages in the layout of registries finds a
registry again in its snapshot, whatever stands behind it.  No message begins
another, so no part of the snapshot will do instead.
-/

namespace StyleAudit

namespace Snapshot

open MessagePack

/-- A snapshot gives back the registry that it keeps, whatever stands behind
it, and what is cut off anywhere before its end is not a snapshot. -/
theorem restore_save {codec : Codec} {limit : Nat}
    (written : codec.WritesNamed) (read : codec.ReadsNamed limit)
    (whole : codec.ReadsWhole) {registry : Registry}
    (storable : registry.Storable) (shallow : (pack registry).depth ≤ limit) :
    ∃ bytes, save codec registry = .ok bytes ∧
      (∀ trailing, restore codec (bytes ++ trailing) = .ok registry) ∧
      ∀ front, front <+: bytes → front ≠ bytes →
        ∃ detail, restore codec front =
          .error (failure "snapshot decode" detail) := by
  have stands := stands_registry storable
  have spells := spells_encode stands.fits
  refine ⟨MessagePack.encode (pack registry), ?_, ?_, ?_⟩
  · rw [save, written registry storable]
    rfl
  · intro trailing
    rw [restore, read registry _ _ trailing storable stands.laid spells shallow]
    rfl
  · intro front begins shorter
    cases found : codec.read front with
    | error detail =>
        refine ⟨detail, ?_⟩
        rw [restore, found]
        rfl
    | ok other =>
        obtain ⟨value, message, spelled, atFront⟩ := whole front other found
        have same := spelled.eq_of_isPrefix spells (atFront.trans begins)
        rw [same] at atFront
        exact (shorter (begins.eq_of_length_le atFront.length_le)).elim

/-- A documented declaration with another one inside, in a file that imports and
includes. -/
def cardRegistry : Registry :=
  let location (line : Nat) : Location :=
    ⟨"card.scss".toList, ⟨⟨300, line, 1⟩, ⟨70000, line, 9⟩⟩⟩
  let doc : Doc.Block :=
    { kind := some .component,
      description := "Größe".toList,
      parameters := [{ name := "size".toList, type := some "number".toList }],
      extensions := [("beta".toList, []), ("since".toList, ["1.0".toList])] }
  let title : Declaration :=
    ⟨.unknown, "c-card__title".toList, ".c-card__title".toList, location 5,
      none, [], .element, []⟩
  let card : Declaration :=
    ⟨.component, "c-card".toList, ".c-card".toList, location 4, some doc,
      [title], .root, ["raised".toList]⟩
  { files := [⟨"card.scss".toList, "@use \"base\";".toList, [card],
      [⟨"base".toList, .use, false, location 1⟩],
      [⟨"raised".toList, location 6⟩]⟩],
    names := [("c-card".toList, ⟨0, 0⟩)] }

theorem restore_save_card :
    cardRegistry.Storable ∧ (pack cardRegistry).depth ≤ depthLimit ∧
      ∃ bytes, save messagePack cardRegistry = .ok bytes ∧
        restore messagePack (bytes ++ [0xc0]) = .ok cardRegistry ∧
        [0x82] <+: bytes ∧
        ∃ detail, restore messagePack [0x82] =
          .error (failure "snapshot decode" detail) := by
  have storable : cardRegistry.Storable := by decide
  have shallow : (pack cardRegistry).depth ≤ depthLimit := by decide
  obtain ⟨bytes, saved, whole, cut⟩ :=
    restore_save writesNamed_messagePack readsNamed_messagePack
      readsWhole_messagePack storable shallow
  obtain rfl : encode cardRegistry = bytes := Except.ok.inj saved
  have begins : [0x82] <+: encode cardRegistry := by decide
  exact ⟨storable, shallow, _, saved, whole [0xc0], begins,
    cut [0x82] begins (by decide)⟩

end Snapshot

end StyleAudit

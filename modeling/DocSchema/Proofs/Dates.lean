-- SUMMARY: Dates as values: they give their instants back and compare as the instants do.
import DocSchema.Proofs.Conditions
import DocSchema.Proofs.Timestamps
import DocSchema.Value.Kind

/-!
# Dates

The value of an instant is a date whose instant can be read back exactly when the
instant is writable. For such instants order and equality of the values are those of
the instants, so a date may be stored and compared in place of its instant.
-/

namespace DocSchema

namespace Value

theorem instant?_ofInstant (t : Instant) :
    (ofInstant t).instant? = Timestamp.read? (Timestamp.text t) := rfl

theorem instant?_ofInstant_eq_iff {t : Instant} :
    (ofInstant t).instant? = some t ↔ t.Writable := by
  rw [instant?_ofInstant, Timestamp.read?_text_eq_iff]

theorem kind_of_instant? {v : Value} {t : Instant} (h : v.instant? = some t) : v.kind = .date := by
  obtain ⟨text, rfl⟩ := eq_of_instant? h
  simp only [kind, h, Option.isSome_some, if_true]

/-- The value of an instant gives the instant back, is of the kind of dates, and is ordered and
equal as the instants are. -/
theorem dates_round_trip {t u : Instant} (ht : t.Writable) (hu : u.Writable) :
    (ofInstant t).instant? = some t ∧
    (ofInstant t).kind.name = "date" ∧
    (ofInstant t).compare? (ofInstant u) = some (t.compare u) ∧
    ((ofInstant t).alike (ofInstant u) = true ↔ t = u) := by
  have hread := instant?_ofInstant_eq_iff.mpr ht
  have hread' := instant?_ofInstant_eq_iff.mpr hu
  refine ⟨hread, ?_, compare?_of_instant? hread hread', ?_⟩
  · rw [kind_of_instant? hread]
    rfl
  · rw [alike_iff_of_instant? hread hread']
    constructor
    · intro heq
      rw [heq] at hread
      exact Option.some.inj (hread.symm.trans hread')
    · exact congrArg ofInstant

/-- The last millisecond before 1970. -/
def lastMoment : Instant := ⟨-1, 999000000⟩

/-- The middle of the leap second at the end of 2016. -/
def leapSecond : Instant := ⟨1483228799, 1500000000⟩

theorem leapSecond_round_trip :
    Timestamp.text lastMoment = "1969-12-31T23:59:59.999Z" ∧
    Timestamp.text leapSecond = "2016-12-31T23:59:60.500Z" ∧
    lastMoment.Writable ∧ leapSecond.Writable ∧
    (ofInstant leapSecond).instant? = some leapSecond ∧
    (ofInstant leapSecond).kind.name = "date" ∧
    (ofInstant leapSecond).compare? (ofInstant lastMoment) = some .gt ∧
    (ofInstant leapSecond).alike (ofInstant lastMoment) = false := by
  have hlast : lastMoment.Writable := ⟨by left; decide, by decide, by decide⟩
  have hleap : leapSecond.Writable := ⟨by right; decide, by decide, by decide⟩
  obtain ⟨hread, hkind, horder, hequal⟩ := dates_round_trip hleap hlast
  refine ⟨by decide +kernel, by decide +kernel, hlast, hleap, hread, hkind, horder, ?_⟩
  rw [← Bool.not_eq_true, hequal]
  decide

end Value

end DocSchema

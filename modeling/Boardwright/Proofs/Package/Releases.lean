import Boardwright.Package.Release
import Boardwright.Proofs.Version.Compatibility
import Boardwright.Proofs.Version.Rank

/-!
# The release that is chosen

Tags are read one after the other into a list of releases. The list `Lists` the tags that have been
read: each release is named by one of them, and each of them stands for a release. Builds are passed
over on the way, but they count neither for the order of versions nor for specifiers.

If all tags are versions, the newest release that satisfies the specifier is chosen, if there is
one: `choose_of_versions`. A tag that is no version keeps any release from being chosen:
`choose_of_malformed`.
-/

open List

namespace Boardwright

namespace Version

variable {v w : Version}

theorem order_eq_of_unbuilt (h : v.unbuilt = w.unbuilt) (x : Version) : v.order x = w.order x := by
  have hv : v.order x = v.unbuilt.order x := rfl
  rw [hv, h]
  rfl

theorem satisfies_eq_of_unbuilt (h : v.unbuilt = w.unbuilt) (spec : String) :
    v.satisfies spec = w.satisfies spec := by
  have hv : v.satisfies spec = v.unbuilt.satisfies spec := rfl
  rw [hv, h]
  rfl

theorem Proper.of_unbuilt (hv : v.Proper) (h : v.unbuilt = w.unbuilt) : w.Proper := by
  have hproper : v.unbuilt.Proper := hv
  rw [h] at hproper
  exact hproper

end Version

namespace Release

open Version

-- what is read and compared below are variables, on which these two only get stuck
attribute [local irreducible] Version.parse Version.satisfies

variable {r s : Release} {rs found : List Release} {tag spec : String} {tags seen : List String}
  {v : Version}

/-! ### Reading the tags -/

theorem mem_add (h : s ∈ add r rs) :
    s ∈ rs ∨ s.tag = r.tag ∧ s.version.unbuilt = r.version.unbuilt := by
  induction rs with
  | nil =>
    obtain rfl := mem_singleton.1 h
    exact Or.inr ⟨rfl, rfl⟩
  | cons r' rs ih =>
    unfold add at h
    split at h
    · next hsame =>
        rcases mem_cons.1 h with rfl | h
        · exact Or.inr ⟨rfl, hsame⟩
        · exact Or.inl (mem_cons_of_mem _ h)
    · rcases mem_cons.1 h with rfl | h
      · exact Or.inl mem_cons_self
      · exact (ih h).imp_left (mem_cons_of_mem _)

theorem exists_mem_add (r : Release) (rs : List Release) :
    ∃ s ∈ add r rs, s.version.unbuilt = r.version.unbuilt := by
  induction rs with
  | nil => exact ⟨r, mem_singleton.2 rfl, rfl⟩
  | cons r' rs ih =>
    unfold add
    split
    · next hsame => exact ⟨_, mem_cons_self, hsame⟩
    · obtain ⟨s, hs, hversion⟩ := ih
      exact ⟨s, mem_cons_of_mem _ hs, hversion⟩

theorem exists_mem_add_of_mem (r : Release) (h : s ∈ rs) :
    ∃ s' ∈ add r rs, s'.version.unbuilt = s.version.unbuilt := by
  induction rs with
  | nil => cases h
  | cons r' rs ih =>
    unfold add
    rcases mem_cons.1 h with rfl | h
    · split
      · exact ⟨_, mem_cons_self, rfl⟩
      · exact ⟨s, mem_cons_self, rfl⟩
    · split
      · exact ⟨s, mem_cons_of_mem _ h, rfl⟩
      · obtain ⟨s', hs', hversion⟩ := ih h
        exact ⟨s', mem_cons_of_mem _ hs', hversion⟩

/-- The releases that tags name, builds apart. -/
structure Lists (tags : List String) (rs : List Release) : Prop where
  /-- Each release is named by a tag that is read as its version. -/
  named : ∀ r ∈ rs, r.tag ∈ tags ∧ ∃ v, parse r.tag = .ok v ∧ v.unbuilt = r.version.unbuilt
  /-- Each tag that is a version names a release. -/
  names : ∀ tag ∈ tags, ∀ v, parse tag = .ok v → ∃ r ∈ rs, r.version.unbuilt = v.unbuilt

theorem Lists.nil : Lists [] [] := ⟨nofun, nofun⟩

theorem Lists.add (h : Lists seen found) (htag : parse tag = .ok v) :
    Lists (seen ++ [tag]) (add ⟨v, tag⟩ found) where
  named := by
    intro r hr
    rcases mem_add hr with hr | ⟨hrtag, hversion⟩
    · obtain ⟨hmem, hparse⟩ := h.named r hr
      exact ⟨mem_append_left _ hmem, hparse⟩
    · rw [hrtag]
      exact ⟨mem_append_right _ (mem_singleton.2 rfl), v, htag, hversion.symm⟩
  names := by
    intro t ht w hw
    rcases mem_append.1 ht with ht | ht
    · obtain ⟨r, hr, hversion⟩ := h.names t ht w hw
      obtain ⟨s, hs, hsversion⟩ := exists_mem_add_of_mem ⟨v, tag⟩ hr
      exact ⟨s, hs, hsversion.trans hversion⟩
    · obtain rfl := mem_singleton.1 ht
      obtain rfl := Except.ok.inj (htag.symm.trans hw)
      exact exists_mem_add _ _

theorem ofTags_cons_ok (htag : parse tag = .ok v) :
    ofTags (tag :: tags) found = ofTags tags (add ⟨v, tag⟩ found) := by
  rw [ofTags_cons, htag]

theorem ofTags_cons_error {m : Malformed} (htag : parse tag = .error m) :
    ofTags (tag :: tags) found = .error (.tag m) := by
  rw [ofTags_cons, htag]

theorem Lists.ofTags (h : Lists seen found) (htags : ∀ tag ∈ tags, ∃ v, parse tag = .ok v) :
    ∃ rs, ofTags tags found = .ok rs ∧ Lists (seen ++ tags) rs := by
  induction tags generalizing seen found with
  | nil => exact ⟨found, rfl, by rwa [append_nil]⟩
  | cons tag tags ih =>
    rw [forall_mem_cons] at htags
    obtain ⟨⟨v, hv⟩, htags⟩ := htags
    rw [ofTags_cons_ok hv, append_cons]
    exact ih (h.add hv) htags

/-- The first tag that is no version is what reading stops at. -/
theorem ofTags_of_malformed (htags : ∃ tag ∈ tags, ∃ m, parse tag = .error m) :
    ∃ before tag after m, tags = before ++ tag :: after ∧
      (∀ t ∈ before, ∃ v, parse t = .ok v) ∧ parse tag = .error m ∧
        ∀ found, ofTags tags found = .error (.tag m) := by
  induction tags with
  | nil => simp at htags
  | cons tag tags ih =>
    cases htag : parse tag with
    | error m =>
      exact ⟨[], tag, tags, m, rfl, nofun, htag, fun found => ofTags_cons_error htag⟩
    | ok v =>
      obtain ⟨before, t, after, m, rfl, hbefore, ht, hfound⟩ := ih (by simpa [htag] using htags)
      refine ⟨tag :: before, t, after, m, rfl, ?_, ht, fun found => ?_⟩
      · exact forall_mem_cons.2 ⟨⟨v, htag⟩, hbefore⟩
      · rw [ofTags_cons_ok htag]
        exact hfound _

theorem Lists.proper (h : Lists tags rs) (hr : r ∈ rs) : r.version.Proper := by
  obtain ⟨-, v, hv, hversion⟩ := h.named r hr
  exact (proper_of_parse hv).of_unbuilt hversion

theorem Lists.eq_nil_iff (h : Lists tags rs) (htags : ∀ tag ∈ tags, ∃ v, parse tag = .ok v) :
    rs = [] ↔ tags = [] := by
  constructor
  · rintro rfl
    apply eq_nil_iff_forall_not_mem.2
    intro tag htag
    obtain ⟨v, hv⟩ := htags tag htag
    obtain ⟨r, hr, -⟩ := h.names tag htag v hv
    cases hr
  · rintro rfl
    apply eq_nil_iff_forall_not_mem.2
    intro r hr
    exact absurd (h.named r hr).1 not_mem_nil

/-! ### Choosing among the releases -/

theorem satisfying_eq_ok (h : ∀ r ∈ rs, ∃ b, r.version.satisfies spec = .ok b) :
    ∃ found, satisfying spec rs = .ok found ∧
      ∀ r, r ∈ found ↔ r ∈ rs ∧ r.version.satisfies spec = .ok true := by
  induction rs with
  | nil => exact ⟨[], rfl, by simp⟩
  | cons r rs ih =>
    rw [forall_mem_cons] at h
    obtain ⟨⟨b, hb⟩, h⟩ := h
    obtain ⟨found, hfound, hmem⟩ := ih h
    refine ⟨if b then r :: found else found, ?_, fun s => ?_⟩
    · rw [satisfying, hb, hfound]
      rfl
    · cases b with
      | true =>
        simp only [if_true, mem_cons, hmem]
        constructor
        · rintro (rfl | ⟨hs, hsat⟩)
          · exact ⟨Or.inl rfl, hb⟩
          · exact ⟨Or.inr hs, hsat⟩
        · rintro ⟨rfl | hs, hsat⟩
          · exact Or.inl rfl
          · exact Or.inr ⟨hs, hsat⟩
      | false =>
        simp only [Bool.false_eq_true, if_false, mem_cons, hmem]
        constructor
        · rintro ⟨hs, hsat⟩
          exact ⟨Or.inr hs, hsat⟩
        · rintro ⟨rfl | hs, hsat⟩
          · rw [hb] at hsat
            cases hsat
          · exact ⟨hs, hsat⟩

/-- What is kept while the newest is looked for is as new as all before it. -/
theorem foldl_newer (hr : r.version.Proper) (hrs : ∀ s ∈ rs, s.version.Proper) :
    let best := rs.foldl (fun best s => if best.version.lt s.version then s else best) r
    best ∈ r :: rs ∧ ∀ s ∈ r :: rs, s.version.order best.version ≠ .gt := by
  induction rs generalizing r with
  | nil => simp [order_self]
  | cons r' rs ih =>
    rw [forall_mem_cons] at hrs
    rw [foldl_cons]
    by_cases hlt : r.version.lt r'.version = true
    · rw [if_pos hlt]
      obtain ⟨hmem, hmax⟩ := ih hrs.1 hrs.2
      refine ⟨mem_cons_of_mem _ hmem, forall_mem_cons.2 ⟨?_, hmax⟩⟩
      have hproper : ∀ s ∈ r' :: rs, s.version.Proper := forall_mem_cons.2 hrs
      refine hr.order_trans hrs.1 (hproper _ hmem) ?_ (hmax r' mem_cons_self)
      rw [lt, beq_iff_eq] at hlt
      rw [hlt]
      decide
    · rw [if_neg hlt]
      obtain ⟨hmem, hmax⟩ := ih hr hrs.2
      rw [forall_mem_cons] at hmax
      refine ⟨?_, ?_⟩
      · rw [mem_cons] at hmem ⊢
        exact hmem.imp_right (mem_cons_of_mem _)
      · refine forall_mem_cons.2 ⟨hmax.1, forall_mem_cons.2 ⟨?_, hmax.2⟩⟩
        have hproper : ∀ s ∈ r :: rs, s.version.Proper := forall_mem_cons.2 ⟨hr, hrs.2⟩
        refine hrs.1.order_trans hr (hproper _ hmem) ?_ hmax.1
        rw [ne_eq, order_eq_gt_iff]
        simpa [lt] using hlt

theorem newest?_eq_none_iff : newest? rs = none ↔ rs = [] := by
  cases rs <;> simp [newest?]

theorem newest?_eq_some (hrs : ∀ s ∈ rs, s.version.Proper) (h : newest? rs = some r) :
    r ∈ rs ∧ ∀ s ∈ rs, s.version.order r.version ≠ .gt := by
  cases rs with
  | nil => cases h
  | cons r' rs =>
    obtain rfl := Option.some.inj h
    rw [forall_mem_cons] at hrs
    exact foldl_newer hrs.1 hrs.2

/-! ### The choice -/

theorem choose_of_malformed (htags : ∃ tag ∈ tags, ∃ m, parse tag = .error m) (spec : String) :
    ∃ before tag after m, tags = before ++ tag :: after ∧
      (∀ t ∈ before, ∃ v, parse t = .ok v) ∧ parse tag = .error m ∧
        choose tags spec = .error (.tag m) := by
  obtain ⟨before, tag, after, m, rfl, hbefore, htag, hfound⟩ := ofTags_of_malformed htags
  refine ⟨before, tag, after, m, rfl, hbefore, htag, ?_⟩
  rw [choose, hfound]
  rfl

theorem choose_nil (hspec : Text.contains "@" spec = false) : choose [] spec = .ok .nothing := by
  show (if Text.contains "@" spec = true then _ else _) = _
  rw [hspec]
  rfl

/-- The tag of the newest of the versions that satisfy a specifier. -/
structure IsBest (tags : List String) (spec tag : String) (v : Version) : Prop where
  mem : tag ∈ tags
  parse : parse tag = .ok v
  satisfies : v.satisfies spec = .ok true
  newest : ∀ t ∈ tags, ∀ w, Version.parse t = .ok w → w.satisfies spec = .ok true →
    w.order v ≠ .gt

theorem IsBest.of_mem {tags' : List String} (h : IsBest tags spec tag v)
    (hmem : ∀ t, t ∈ tags ↔ t ∈ tags') : IsBest tags' spec tag v where
  mem := (hmem tag).1 h.mem
  parse := h.parse
  satisfies := h.satisfies
  newest := fun t ht => h.newest t ((hmem t).2 ht)

/-- If all tags are versions, one of the newest that satisfy the specifier is chosen, and none only
if none satisfies it. -/
theorem choose_of_versions (htags : ∀ tag ∈ tags, ∃ v, parse tag = .ok v) (hne : tags ≠ [])
    (hspec : Text.contains "@" spec = false)
    (hsat : ∀ tag ∈ tags, ∀ v, parse tag = .ok v → ∃ b, v.satisfies spec = .ok b) :
    (∃ r v, choose tags spec = .ok (.release r) ∧ IsBest tags spec r.tag v) ∨
    choose tags spec = .error .noneMatches ∧
      ∀ tag ∈ tags, ∀ v, parse tag = .ok v → v.satisfies spec = .ok false := by
  obtain ⟨rs, hrs, hlists⟩ := Lists.nil.ofTags htags
  rw [nil_append] at hlists
  have hempty : rs.isEmpty = false := by
    rw [isEmpty_eq_false_iff, ne_eq, hlists.eq_nil_iff htags]
    exact hne
  have hanswered : ∀ r ∈ rs, ∃ b, r.version.satisfies spec = .ok b := by
    intro r hr
    obtain ⟨htag, v, hv, hversion⟩ := hlists.named r hr
    rw [← satisfies_eq_of_unbuilt hversion]
    exact hsat r.tag htag v hv
  obtain ⟨found, hfound, hmem⟩ := satisfying_eq_ok hanswered
  have hchoose : choose tags spec =
      (newest? found).elim (.error .noneMatches) fun r => .ok (.release r) := by
    rw [choose, hrs]
    show (if Text.contains "@" spec = true then _ else if rs.isEmpty = true then _ else _) = _
    rw [hspec, hempty, hfound]
    dsimp only [bind, Except.bind]
    cases newest? found <;> rfl
  -- a tag that satisfies the specifier names a release that was found
  have hfinds : ∀ tag ∈ tags, ∀ v, parse tag = .ok v → v.satisfies spec = .ok true →
      ∃ r ∈ found, r.version.unbuilt = v.unbuilt := by
    intro tag htag v hv hholds
    obtain ⟨r, hr, hversion⟩ := hlists.names tag htag v hv
    refine ⟨r, (hmem r).2 ⟨hr, ?_⟩, hversion⟩
    rwa [satisfies_eq_of_unbuilt hversion]
  rw [hchoose]
  cases hnewest : newest? found with
  | none =>
    obtain rfl := newest?_eq_none_iff.1 hnewest
    refine Or.inr ⟨rfl, fun tag htag v hv => ?_⟩
    obtain ⟨b, hb⟩ := hsat tag htag v hv
    cases b with
    | true =>
      obtain ⟨r, hr, -⟩ := hfinds tag htag v hv hb
      cases hr
    | false => exact hb
  | some r =>
    have hproper : ∀ s ∈ found, s.version.Proper := fun s hs => hlists.proper ((hmem s).1 hs).1
    obtain ⟨hr, hmax⟩ := newest?_eq_some hproper hnewest
    obtain ⟨hr, hholds⟩ := (hmem r).1 hr
    obtain ⟨htag, v, hv, hversion⟩ := hlists.named r hr
    refine Or.inl ⟨r, v, rfl, htag, hv, ?_, ?_⟩
    · rwa [satisfies_eq_of_unbuilt hversion]
    · intro t ht w hw hwholds
      obtain ⟨s, hs, hsversion⟩ := hfinds t ht w hw hwholds
      rw [← order_eq_of_unbuilt hsversion, ne_eq, order_eq_gt_iff, order_eq_of_unbuilt hversion,
        ← order_eq_gt_iff]
      exact hmax s hs

end Release

end Boardwright

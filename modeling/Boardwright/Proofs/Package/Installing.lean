import Boardwright.Package.Install
import Boardwright.Proofs.Package.Releases
import Boardwright.Proofs.Table
import Boardwright.Proofs.Work

/-!
# What installing a package checks out

The repository of a package is brought home: it is cloned, or the one that is there is fetched. What
it is then like, and what has been asked of the outside for it, is said by `Brings`. After that the
release is chosen and checked out: `installPackage_eq_checkoutBest`.
-/

open List

namespace Boardwright

/-- The specifier that a package is installed by; without one, or with an empty one, any version
will do. -/
def PackageSpec.wanted (p : PackageSpec) : String :=
  match p.spec with
  | none | some "" => "*"
  | some s => s

def Repository.on (repository : Repository) : Option String → Repository
  | none => repository
  | some tag => { repository with head := (repository.refs.get? tag).getD tag }

namespace Workshop

open Work

variable {shop : Workshop} {home modules : Route} {name asked spec ref : String} {upgrade : Bool}
  {repository : Repository} {calls : List Call} {fs fs' : Files}

def repositoryAt (shop : Workshop) (r : Route) : Option Repository :=
  shop.repositories.get? (shop.session.library.files.resolve r).parts

/-- A repository is brought where a route leads. -/
inductive Brings (shop : Workshop) (home : Route) (name : String) (upgrade : Bool) :
    Repository → List Call → Prop
  /-- The registry knows the package, and its repository can be cloned. -/
  | cloned {status : Nat} {body : Document} {url : String} {repository : Repository} :
    shop.repositoryAt home = none → shop.registry.get? name = some (status, body) →
    Registry.repositoryOf name status body = .ok (.text url) →
    shop.offered.get? url = some repository →
    Brings shop home name upgrade repository [.registry name, .clone (.text url) home.text]
  /-- The repository is there already, and is to be upgraded. -/
  | fetched {repository : Repository} :
    shop.repositoryAt home = some repository → upgrade = true →
    Brings shop home name upgrade
      { repository with tags := repository.tags ++ repository.newTags, newTags := [] }
      [.fetch (repositoryName home.text)]

def noted (shop : Workshop) (severity : Severity) (message : String) : Workshop :=
  { shop with session.log := shop.session.log ++ [⟨severity, message⟩] }

def called (shop : Workshop) (c : Call) : Workshop := { shop with calls := shop.calls ++ [c] }

theorem outcome_note (shop : Workshop) (severity : Severity) (message : String) :
    (note severity message).outcome shop = (.ok (), shop.noted severity message) := rfl

theorem outcome_repository? (shop : Workshop) (r : Route) :
    (repository? r).outcome shop = (.ok (shop.repositoryAt r), shop) := rfl

theorem outcome_fetch (shop : Workshop) (hat : shop.repositoryAt home = some repository) :
    ∃ shop', (fetch home).outcome shop = (.ok (), shop') ∧
      shop'.calls = shop.calls ++ [.fetch (repositoryName home.text)] ∧
      shop'.repositoryAt home =
        some { repository with tags := repository.tags ++ repository.newTags, newTags := [] } := by
  refine ⟨_, rfl, rfl, ?_⟩
  exact (Table.get?_modify_self _ _ _).trans (congrArg _ hat)

theorem cwd_foldl_write (entries : List (String × String)) (home : Route) (fs : Files) :
    (entries.foldl (fun fs (path, text) => fs.write (home.joinText path).parts text) fs).cwd =
      fs.cwd := by
  induction entries generalizing fs with
  | nil => rfl
  | cons e entries ih => exact ih _

theorem cwd_makeDir (fs : Files) (parts : List String) : (fs.makeDir parts).cwd = fs.cwd := by
  unfold Files.makeDir
  split <;> rfl

theorem cwd_of_makeDirs {r : Route} (h : fs.makeDirs r = .ok fs') :
    fs'.cwd = fs.cwd := by
  unfold Files.makeDirs at h
  dsimp only at h
  split at h
  · rw [Except.ok.inj h]
  · split at h
    · cases h
    · split at h
      · cases h
      · rw [← Except.ok.inj h, cwd_makeDir]

theorem resolve_of_cwd (h : fs'.cwd = fs.cwd) (r : Route) :
    fs'.resolve r = fs.resolve r := by
  rw [Files.resolve, Files.resolve, h]

theorem outcome_clone (shop : Workshop) {url : String} (home : Route)
    (hoffer : shop.offered.get? url = some repository) :
    ∃ shop', (clone (.text url) home).outcome shop = (.ok (), shop') ∧
      shop'.calls = shop.calls ++ [.clone (.text url) home.text] ∧
      shop'.repositoryAt home = some repository := by
  have hoffer' : (shop.called (.clone (.text url) home.text)).offer? (.text url) =
      some repository := hoffer
  simp only [called] at hoffer'
  simp only [clone, call, outcome_modify_bind, outcome_get_bind, hoffer']
  refine ⟨_, rfl, rfl, ?_⟩
  unfold repositoryAt
  rw [resolve_of_cwd (cwd_foldl_write _ _ _), resolve_of_cwd (cwd_makeDir _ _)]
  exact Table.get?_set_self _ _ _

theorem outcome_lookUp (shop : Workshop) {status : Nat} {body : Document} {url : Document}
    (hknown : shop.registry.get? name = some (status, body))
    (hurl : Registry.repositoryOf name status body = .ok url) :
    (lookUp name).outcome shop = (.ok url, shop.called (.registry name)) := by
  simp only [lookUp, call, outcome_modify_bind, outcome_get_bind, hknown, Option.getD_some, hurl]
  rfl

theorem outcome_makeDirs (h : shop.session.library.files.makeDirs modules = .ok fs) :
    (makeDirs modules).outcome shop =
      (.ok (), { shop with session.library.files := fs }) := by
  have hmake : (makeDirs modules).outcome shop =
      ((orFault (shop.session.library.files.makeDirs modules)) >>= setFiles).outcome shop := rfl
  rw [hmake, h]
  rfl

/-- The repository of a package is cloned, or fetched if it is there and to be upgraded. -/
def bring (home : Route) (name : String) (upgrade : Bool) : Work Workshop Bool := do
  match ← repository? home with
  | none =>
    note .info ("Installing dependency " ++ name)
    clone (← lookUp name) home
    return true
  | some _ =>
    if upgrade then
      note .info ("Fetching latest changes for " ++ name)
      fetch home
      return true
    else
      note .info (name ++ " already exists. If you wish to upgrade, use --upgrade")
      return false

theorem installPackage_eq (modules : Route) (asked : String) (upgrade : Bool) :
    installPackage modules asked upgrade = (do
      let package := PackageSpec.ofText asked
      makeDirs modules
      let home := modules.joinText package.name
      if ← bring home package.name upgrade then checkoutBest home package.name package.wanted
      else return none) := by
  unfold installPackage bring
  dsimp only
  congr 1
  funext _
  rw [bind_assoc]
  congr 1
  funext found
  cases found with
  | none =>
    simp only [bind_assoc, pure_bind, if_true]
    rfl
  | some _ =>
    cases upgrade with
    | true =>
      simp only [bind_assoc, pure_bind, if_true]
      rfl
    | false => simp only [bind_assoc, pure_bind, Bool.false_eq_true, if_false]

theorem outcome_bring (h : Brings shop home name upgrade repository calls) :
    ∃ shop', (bring home name upgrade).outcome shop = (.ok true, shop') ∧
      shop'.calls = shop.calls ++ calls ∧ shop'.repositoryAt home = some repository := by
  unfold bring
  rw [outcome_bind_ok _ (outcome_repository? shop home)]
  cases h with
  | cloned hnone hknown hurl hoffer =>
    rw [hnone]
    dsimp only
    rw [outcome_bind_ok _ (outcome_note shop _ _),
      outcome_bind_ok _ (outcome_lookUp (shop.noted _ _) hknown hurl)]
    obtain ⟨shop', hclone, hcalls, hhome⟩ :=
      outcome_clone ((shop.noted _ _).called (.registry name)) home hoffer
    refine ⟨shop', ?_, ?_, hhome⟩
    · rw [outcome_bind_ok _ hclone, outcome_pure]
    · rw [hcalls]
      exact append_assoc _ _ _
  | fetched hsome hupgrade =>
    rw [hsome, hupgrade]
    dsimp only
    rw [if_pos rfl, outcome_bind_ok _ (outcome_note shop _ _)]
    obtain ⟨shop', hfetch, hcalls, hhome⟩ := outcome_fetch (shop.noted _ _) hsome
    refine ⟨shop', ?_, hcalls, hhome⟩
    rw [outcome_bind_ok _ hfetch, outcome_pure]

theorem Brings.of_cwd (hcwd : fs.cwd = shop.session.library.files.cwd)
    (h : Brings shop home name upgrade repository calls) :
    Brings { shop with session.library.files := fs } home name upgrade repository calls := by
  have hat : ({ shop with session.library.files := fs } : Workshop).repositoryAt home =
      shop.repositoryAt home := by
    unfold repositoryAt
    rw [resolve_of_cwd hcwd]
  cases h with
  | cloned hnone hknown hurl hoffer => exact .cloned (hat.trans hnone) hknown hurl hoffer
  | fetched hsome hupgrade => exact .fetched (hat.trans hsome) hupgrade

/-- A repository that is cloned or fetched is at home when its release is chosen. -/
theorem installPackage_eq_checkoutBest
    (hdirs : shop.session.library.files.makeDirs modules = .ok fs)
    (h : Brings shop (modules.joinText (PackageSpec.ofText asked).name)
      (PackageSpec.ofText asked).name upgrade repository calls) :
    ∃ shop', shop'.calls = shop.calls ++ calls ∧
      shop'.repositoryAt (modules.joinText (PackageSpec.ofText asked).name) = some repository ∧
      (installPackage modules asked upgrade).outcome shop =
        (checkoutBest (modules.joinText (PackageSpec.ofText asked).name)
          (PackageSpec.ofText asked).name (PackageSpec.ofText asked).wanted).outcome shop' := by
  obtain ⟨shop', hbring, hcalls, hhome⟩ := outcome_bring (h.of_cwd (cwd_of_makeDirs hdirs))
  refine ⟨shop', hcalls, hhome, ?_⟩
  rw [installPackage_eq, outcome_bind_ok _ (outcome_makeDirs hdirs), outcome_bind_ok _ hbring]
  rfl

/-! ### Checking out -/

theorem mem_sortedTags {tag : String} : tag ∈ sortedTags repository ↔ tag ∈ repository.tags := by
  rw [sortedTags, mem_mergeSort, mem_eraseDups]

theorem pairwise_sortedTags (repository : Repository) :
    (sortedTags repository).Pairwise (· ≤ ·) := by
  have hsorted : (sortedTags repository).Pairwise fun a b => decide (a ≤ b) = true :=
    pairwise_mergeSort (fun _ _ _ => by simpa using String.le_trans)
      (fun _ _ => by simpa using String.le_total _ _) _
  simpa using hsorted

theorem sortedTags_eq_nil_iff : sortedTags repository = [] ↔ repository.tags = [] := by
  simp only [eq_nil_iff_forall_not_mem, mem_sortedTags]

/-- Of the tags that are no versions, the first in the order of texts is met. -/
theorem choose_sortedTags_of_malformed
    (hmalformed : ∃ tag ∈ repository.tags, ∃ m, Version.parse tag = .error m) (spec : String) :
    ∃ tag ∈ repository.tags, ∃ m, Version.parse tag = .error m ∧
      (∀ t ∈ repository.tags, (∃ m', Version.parse t = .error m') → tag ≤ t) ∧
      Release.choose (sortedTags repository) spec = .error (.tag m) := by
  simp only [← mem_sortedTags] at hmalformed ⊢
  obtain ⟨before, tag, after, m, htags, hbefore, hm, hchoose⟩ :=
    Release.choose_of_malformed hmalformed spec
  refine ⟨tag, by simp [htags], m, hm, ?_, hchoose⟩
  rintro t ht ⟨m', hm'⟩
  have hsorted := pairwise_sortedTags repository
  rw [htags, pairwise_append, pairwise_cons] at hsorted
  rw [htags, mem_append, mem_cons] at ht
  rcases ht with ht | rfl | ht
  · obtain ⟨w, hw⟩ := hbefore t ht
    cases hw.symm.trans hm'
  · exact String.le_refl _
  · exact hsorted.2.1.1 t ht

theorem outcome_checkout (ref : String) (hat : shop.repositoryAt home = some repository) :
    ∃ shop', (checkout home ref).outcome shop = (.ok (), shop') ∧
      shop'.calls = shop.calls ++ [.checkout (repositoryName home.text) ref] ∧
      shop'.repositoryAt home = some (repository.on ref) := by
  refine ⟨_, rfl, rfl, ?_⟩
  exact (Table.get?_modify_self _ _ _).trans (congrArg _ hat)

theorem outcome_checkoutChoice (hat : shop.repositoryAt home = some repository)
    (hclean : repository.dirty = false) (name ref : String) :
    ∃ shop', (checkoutChoice home name ref).outcome shop = (.ok (), shop') ∧
      shop'.calls = shop.calls ++ [.checkout (repositoryName home.text) ref] ∧
      shop'.repositoryAt home = some (repository.on ref) := by
  obtain ⟨shop', hcheckout, hcalls, hhome⟩ := outcome_checkout ref hat
  unfold checkoutChoice
  rw [outcome_bind_ok _ (outcome_repository? _ _), hat, Option.getD_some]
  dsimp only
  rw [if_neg (by simp [hclean]), outcome_bind_ok _ hcheckout,
    outcome_bind_ok _ (outcome_repository? _ _)]
  split
  · exact ⟨_, outcome_note shop' _ _, hcalls, hhome⟩
  · exact ⟨_, outcome_note shop' _ _, hcalls, hhome⟩

theorem outcome_checkoutBest (hat : shop.repositoryAt home = some repository) :
    (checkoutBest home name spec).outcome shop =
      (match Release.choose (sortedTags repository) spec with
        | .error f => throw (choiceFailure f)
        | .ok .nothing => do
          note .warning
            "No semver tags found for this module. Using latest default branch :hot_pepper:."
          return none
        | .ok (.named ref) => do
          checkoutChoice home name ref
          return none
        | .ok (.release r) => do
          checkoutChoice home name r.tag
          return some r.tag : Work Workshop (Option String)).outcome shop := by
  unfold checkoutBest
  rw [outcome_bind_ok _ (outcome_repository? _ _), hat]
  rfl

/-- How the choice among the tags of a repository ends: with a result, and with the tag that is
checked out, if one is. -/
inductive Chooses (tags : List String) (spec : String) :
    Except Failure (Option String) → Option String → Prop
  /-- All tags are versions, and one of the newest that satisfy the specifier is checked out. -/
  | best {tag : String} {v : Version} (versions : ∀ t ∈ tags, ∃ w, Version.parse t = .ok w)
    (best : Release.IsBest tags spec tag v) : Chooses tags spec (.ok (some tag)) (some tag)
  /-- There are no tags. -/
  | noTags (empty : tags = []) : Chooses tags spec (.ok none) none
  /-- All tags are versions, and none satisfies the specifier. -/
  | noneFits (nonempty : tags ≠ [])
    (unfit : ∀ t ∈ tags, ∃ w, Version.parse t = .ok w ∧ w.satisfies spec = .ok false) :
    Chooses tags spec (.error (.fault (.value "max() arg is an empty sequence"))) none
  /-- A tag is no version; of several such tags the first in the order of texts is named. -/
  | malformed {tag : String} {m : Version.Malformed} (mem : tag ∈ tags)
    (malformed : Version.parse tag = .error m)
    (first : ∀ t ∈ tags, (∃ m', Version.parse t = .error m') → tag ≤ t) :
    Chooses tags spec (.error (.fault (.value m.message))) none

theorem checkoutBest_chooses (name : String) (hat : shop.repositoryAt home = some repository)
    (hclean : repository.dirty = false) (hnamed : Text.contains "@" spec = false)
    (hspec : ∀ tag ∈ repository.tags, ∀ v, Version.parse tag = .ok v →
      ∃ b, v.satisfies spec = .ok b) :
    ∃ result tag? shop', (checkoutBest home name spec).outcome shop = (result, shop') ∧
      Chooses repository.tags spec result tag? ∧
      shop'.calls =
        shop.calls ++ tag?.toList.map (.checkout (repositoryName home.text)) ∧
      shop'.repositoryAt home = some (repository.on tag?) := by
  rw [outcome_checkoutBest hat]
  by_cases hmalformed : ∃ tag ∈ repository.tags, ∃ m, Version.parse tag = .error m
  · obtain ⟨tag, htag, m, hm, hfirst, hchoose⟩ := choose_sortedTags_of_malformed hmalformed spec
    rw [hchoose]
    exact ⟨_, none, shop, rfl, .malformed htag hm hfirst, (append_nil _).symm, hat⟩
  · have hversions : ∀ tag ∈ repository.tags, ∃ v, Version.parse tag = .ok v := by
      intro tag htag
      cases hparse : Version.parse tag with
      | ok v => exact ⟨v, rfl⟩
      | error m => exact absurd ⟨tag, htag, m, hparse⟩ hmalformed
    by_cases hempty : repository.tags = []
    · rw [sortedTags_eq_nil_iff.2 hempty, Release.choose_nil hnamed]
      exact ⟨_, none, _, rfl, .noTags hempty, (append_nil _).symm, hat⟩
    · have hchoose := Release.choose_of_versions
        (fun tag htag => hversions tag (mem_sortedTags.1 htag)) (sortedTags_eq_nil_iff.not.2 hempty)
        hnamed fun tag htag => hspec tag (mem_sortedTags.1 htag)
      rcases hchoose with ⟨r, v, hchoose, hbest⟩ | ⟨hchoose, hunfit⟩
      · obtain ⟨shop', hcheckout, hcalls, hhome⟩ := outcome_checkoutChoice hat hclean name r.tag
        rw [hchoose]
        refine ⟨_, some r.tag, shop', outcome_bind_ok _ hcheckout, ?_, hcalls, hhome⟩
        exact .best hversions (hbest.of_mem fun _ => mem_sortedTags)
      · rw [hchoose]
        refine ⟨_, none, shop, rfl, .noneFits hempty ?_, (append_nil _).symm, hat⟩
        intro t ht
        obtain ⟨w, hw⟩ := hversions t ht
        exact ⟨w, hw, hunfit t (mem_sortedTags.2 ht) w hw⟩

/-- A clean repository that is cloned or fetched is put on the tag of the newest version that
satisfies the specifier, if all tags are versions and one of them satisfies it. Otherwise nothing is
checked out: a repository without tags is left on its default branch, and both a tag that is no
version and tags of which none satisfies the specifier are faults. -/
theorem installPackage_chooses {fs : Files}
    (hdirs : shop.session.library.files.makeDirs modules = .ok fs)
    (hbrings : Brings shop (modules.joinText (PackageSpec.ofText asked).name)
      (PackageSpec.ofText asked).name upgrade repository calls)
    (hclean : repository.dirty = false)
    (hnamed : Text.contains "@" (PackageSpec.ofText asked).wanted = false)
    (hspec : ∀ tag ∈ repository.tags, ∀ v, Version.parse tag = .ok v →
      ∃ b, v.satisfies (PackageSpec.ofText asked).wanted = .ok b) :
    ∃ result tag? shop', (installPackage modules asked upgrade).outcome shop = (result, shop') ∧
      Chooses repository.tags (PackageSpec.ofText asked).wanted result tag? ∧
      shop'.calls = shop.calls ++ calls ++ tag?.toList.map
        (.checkout (repositoryName (modules.joinText (PackageSpec.ofText asked).name).text)) ∧
      shop'.repositoryAt (modules.joinText (PackageSpec.ofText asked).name) =
        some (repository.on tag?) := by
  obtain ⟨shop', hcalls, hat, houtcome⟩ := installPackage_eq_checkoutBest hdirs hbrings
  obtain ⟨result, tag?, shop'', hbest, hchooses, hcalls', hat'⟩ :=
    checkoutBest_chooses (PackageSpec.ofText asked).name hat hclean hnamed hspec
  refine ⟨result, tag?, shop'', houtcome.trans hbest, hchooses, ?_, hat'⟩
  rw [hcalls', hcalls]

/-- A workshop in which the package `gen` can be cloned, with the given tags. -/
def shelf (tags : List String) : Workshop where
  registry := ⟨[("gen", 200,
    .map [(.text "data", .map [(.text "repo_url", .text "https://git/gen")])])]⟩
  offered := ⟨[("https://git/gen", { tags := tags })]⟩

theorem brings_shelf (tags : List String) (upgrade : Bool) :
    Brings (shelf tags) (Route.joinText ⟨true, ["proj", ".ato", "modules"]⟩ "gen") "gen" upgrade
      { tags := tags }
      [.registry "gen", .clone (.text "https://git/gen") "/proj/.ato/modules/gen"] :=
  .cloned rfl rfl rfl rfl

theorem makeDirs_shelf (tags : List String) :
    (shelf tags).session.library.files.makeDirs ⟨true, ["proj", ".ato", "modules"]⟩ =
      .ok { dirs := [["proj", ".ato", "modules"]] } := rfl

/-- A specifier that leaves the newest version out. -/
theorem installPackage_chooses_caret :
    ∃ shop', (installPackage ⟨true, ["proj", ".ato", "modules"]⟩ "gen^1.0.0" false).outcome
        (shelf ["1.0.0", "2.0.0", "v1.4.0"]) = (.ok (some "v1.4.0"), shop') := by
  have hasked : PackageSpec.ofText "gen^1.0.0" = ⟨"gen", some "^1.0.0"⟩ := by decide +kernel
  have hone : Version.parse "1.0.0" = .ok ⟨1, 0, 0, none, none⟩ := by decide +kernel
  have htwo : Version.parse "2.0.0" = .ok ⟨2, 0, 0, none, none⟩ := by decide +kernel
  have hnext : Version.parse "v1.4.0" = .ok ⟨1, 4, 0, none, none⟩ := by decide +kernel
  have hmark : Version.Operator.caret.mark ++ "1.0.0" = "^1.0.0" := by decide
  have hsatisfies := fun v => hmark ▸ Version.satisfies_mark v .caret hone
  have hchooses := @installPackage_chooses (shelf ["1.0.0", "2.0.0", "v1.4.0"])
    ⟨true, ["proj", ".ato", "modules"]⟩ "gen^1.0.0" false
  rw [hasked] at hchooses
  obtain ⟨result, tag?, shop', houtcome, hbest, -⟩ := hchooses (makeDirs_shelf _)
    (brings_shelf _ false) rfl (by decide +kernel) fun _ _ v _ => ⟨_, hsatisfies v⟩
  refine ⟨shop', houtcome.trans ?_⟩
  have hfits : (⟨1, 4, 0, none, none⟩ : Version).satisfies "^1.0.0" = .ok true := by
    rw [hsatisfies, decide_eq_true (by decide +kernel)]
  cases hbest with
  | noTags hempty => cases hempty
  | noneFits _ hunfit =>
    obtain ⟨w, hw, hfalse⟩ := hunfit "v1.4.0" (by simp)
    obtain rfl := Except.ok.inj (hnext.symm.trans hw)
    cases hfits.symm.trans hfalse
  | malformed hmem hmalformed _ =>
    simp only [List.mem_cons, List.not_mem_nil, or_false] at hmem
    rcases hmem with rfl | rfl | rfl
    · cases hone.symm.trans hmalformed
    · cases htwo.symm.trans hmalformed
    · cases hnext.symm.trans hmalformed
  | best _ hbest =>
    have hmem := hbest.mem
    simp only [List.mem_cons, List.not_mem_nil, or_false] at hmem
    rcases hmem with rfl | rfl | rfl
    · obtain rfl := Except.ok.inj (hone.symm.trans hbest.parse)
      exact absurd (hbest.newest "v1.4.0" (by simp) _ hnext hfits) (by decide)
    · obtain rfl := Except.ok.inj (htwo.symm.trans hbest.parse)
      have hunfit := (hsatisfies _).symm.trans hbest.satisfies
      exact absurd (Except.ok.inj hunfit) (by decide +kernel)
    · rfl

/-- A tag that is no version is not passed over: `1.0.0` fits, but nothing is checked out. -/
theorem installPackage_nightly :
    ∃ shop', (installPackage ⟨true, ["proj", ".ato", "modules"]⟩ "gen" false).outcome
        (shelf ["1.0.0", "nightly"]) =
          (.error (.fault (.value "nightly- is not valid SemVer string")), shop') ∧
      shop'.calls =
        [.registry "gen", .clone (.text "https://git/gen") "/proj/.ato/modules/gen"] ∧
      Version.parse "1.0.0" = .ok ⟨1, 0, 0, none, none⟩ ∧
      (⟨1, 0, 0, none, none⟩ : Version).satisfies (PackageSpec.ofText "gen").wanted = .ok true := by
  have hasked : PackageSpec.ofText "gen" = ⟨"gen", none⟩ := by decide +kernel
  have hone : Version.parse "1.0.0" = .ok ⟨1, 0, 0, none, none⟩ := by decide +kernel
  have hnightly : Version.parse "nightly" = .error ⟨"nightly-"⟩ := by decide +kernel
  have hinstall := @installPackage_eq_checkoutBest (shelf ["1.0.0", "nightly"])
    ⟨true, ["proj", ".ato", "modules"]⟩ "gen" false
  rw [hasked] at hinstall
  obtain ⟨shop', hcalls, hat, houtcome⟩ := hinstall (makeDirs_shelf _) (brings_shelf _ false)
  have hmalformed : ∃ tag ∈ ["1.0.0", "nightly"], ∃ m, Version.parse tag = .error m :=
    ⟨"nightly", by simp, _, hnightly⟩
  obtain ⟨tag, htag, m, hm, -, hchoose⟩ :=
    @choose_sortedTags_of_malformed { tags := ["1.0.0", "nightly"] } hmalformed "*"
  have hmessage : m = ⟨"nightly-"⟩ := by
    simp only [List.mem_cons, List.not_mem_nil, or_false] at htag
    rcases htag with rfl | rfl
    · cases hone.symm.trans hm
    · exact (Except.error.inj (hnightly.symm.trans hm)).symm
  refine ⟨shop', ?_, hcalls, hone, by rw [hasked]; decide +kernel⟩
  have hwanted : PackageSpec.wanted ⟨"gen", none⟩ = "*" := rfl
  rw [houtcome, outcome_checkoutBest hat, hwanted, hchoose, hmessage]
  rfl

end Workshop

end Boardwright

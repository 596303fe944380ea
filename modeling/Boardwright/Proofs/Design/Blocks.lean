import Boardwright.Proofs.Design.Alongside
import Boardwright.Proofs.Design.Query
import Boardwright.Proofs.Parents
import Mathlib.Data.List.Infix

/-!
# The blocks of a file

A file that is visited without an error makes one definition known for each block that names lead
to, where of blocks with one name in one body the last one counts, and no other. The closure of a
definition is the chain of the definitions around it. None of this depends on what was looked for
before.
-/

namespace Boardwright

open Syntax List

/-- The definitions around a definition are those that the names before its own lead to. -/
theorem Source.closure_of_follow {src : Source} {d e : Definition} {path : List String}
    (hd : d.closure = []) (h : src.follow d path = some e) :
    ∃ around : List Definition, e.closure = around.map (·.toScope) ∧
      around.map some = path.inits.dropLast.reverse.map (src.follow d) := by
  induction path using List.reverseRecOn generalizing e with
  | nil => exact ⟨[], Option.some.inj h ▸ hd, rfl⟩
  | append_singleton path n ih =>
    have hconcat : src.follow d (path ++ [n]) = (src.follow d path).bind (src.blockIn · n) := by
      simp [follow]
    rw [hconcat, Option.bind_eq_some_iff] at h
    obtain ⟨d', hd', he⟩ := h
    obtain ⟨⟨header, b⟩, -, rfl⟩ := Option.map_eq_some_iff.1 he
    obtain ⟨around, hclosure, haround⟩ := ih hd'
    refine ⟨d' :: around, congrArg (_ :: ·) hclosure, ?_⟩
    have hinits : path.inits = path.inits.dropLast ++ [path] := by
      cases path using List.reverseRecOn <;> simp [inits_append]
    have hbefore : (path ++ [n]).inits.dropLast = path.inits := by simp [inits_append]
    rw [hbefore, hinits, reverse_concat, map_cons, map_cons, hd', haround]

namespace Library

variable {files : Files} {searched : List Route} {lib : Library} {file : String}
  {ds : List Definition} {path : List String}

/-- After any queries, names in a file that is visited without an error lead to the definition of
the block that they lead to in the text, with the definitions around it in its closure, or to a
report that there is no such block. -/
theorem definition_inside (hlib : Reached files searched lib) (hfile : ':' ∉ file.toList)
    (hread : read { files, searched } file = .ok ds) (hpath : AreNames path) (hne : path ≠ []) :
    ∃ text f, files.find? (Route.ofText file) = some (.file text) ∧
      SourceFile.parse text = .ok f ∧
      let src : Source := ⟨files, searched, Route.ofText file⟩
      let a := Address.inside ⟨file⟩
      let answer := fun p => ((definition (a p)).outcome lib).1
      (a path).text = file ++ ":" ++ Text.join "." path ∧
      answer path = (src.follow (src.fileDefinition ⟨file⟩ f) path).elim
        (.error (noBlock (a path))) .ok ∧
      ∀ d, answer path = .ok d → d.address = a path ∧
        ∃ around : List Definition, d.closure = around.map (·.toScope) ∧
          around.map some = path.inits.dropLast.reverse.map fun p => (answer p).toOption := by
  obtain ⟨text, f, htext, hf, hds⟩ := read_eq_ok_iff.1 hread
  refine ⟨text, f, htext, hf, ?_⟩
  intro src a answer
  have hanswer : ∀ p, AreNames p → answer p =
      (src.follow (src.fileDefinition ⟨file⟩ f) p).elim (.error (noBlock (a p))) .ok := by
    intro p hp
    have hsame : (a p).file = file :=
      (Address.file_inside _ p).trans (Address.file_of_isFile hfile)
    rw [← defined_inside hfile htext hf hds hp]
    refine (hlib.sound.settled.outcome_definition _).trans ?_
    rw [found, hsame, hread]
    cases defined files searched (a p) <;> rfl
  have hfollow : ∀ p, AreNames p →
      (answer p).toOption = src.follow (src.fileDefinition ⟨file⟩ f) p := by
    intro p hp
    rw [hanswer p hp]
    cases src.follow (src.fileDefinition ⟨file⟩ f) p <;> rfl
  obtain ⟨e, he, hspells⟩ := Address.exists_addEntries hfile hpath hne
  have hspelled := Address.eq_inside_of_addEntries he ▸ hspells.text
  refine ⟨String.toList_inj.1 (by simpa using hspelled), hanswer path hpath, fun d hd => ?_⟩
  have hd : src.follow (src.fileDefinition ⟨file⟩ f) path = some d :=
    (hfollow path hpath).symm.trans (congrArg Except.toOption hd)
  obtain ⟨around, hclosure, haround⟩ := Source.closure_of_follow rfl hd
  refine ⟨Source.address_of_follow hd, around, hclosure, ?_⟩
  refine haround.trans (map_congr_left fun p hp => (hfollow p fun n hn => hpath n ?_).symm)
  exact ((mem_inits p path).1 (mem_of_mem_dropLast (mem_reverse.1 hp))).subset hn

/-- A file with two blocks of one name, with different blocks in them. -/
def renewed : Files where
  texts := ⟨[(["f"], "module A:\n  module X:\n    signal s\nmodule A:\n  module Y:\n" ++
    "    signal t\n")]⟩

/-- What stands in the first block is not found, also if it is looked for again. -/
theorem definition_inside_renewed :
    let lib := ((definition ⟨"f:A.X"⟩).outcome { files := renewed }).2
    (((definition ⟨"f:A.Y"⟩).outcome lib).1.toOption.map fun d => d.closure.map (·.address)) =
      some [⟨"f:A"⟩, ⟨"f"⟩] ∧
    ((definition ⟨"f:A.X"⟩).outcome lib).1 = .error (noBlock ⟨"f:A.X"⟩) := by
  intro lib
  refine ⟨by decide +kernel, ?_⟩
  have hlib : Reached renewed [] lib := Reached.fresh.definition ⟨"f:A.X"⟩
  have hnone : ((definition ⟨"f:A.X"⟩).outcome lib).1.toOption.isSome = false := by
    decide +kernel
  cases hread : read { files := renewed, searched := [] } "f" with
  | error e =>
    have hok : (read { files := renewed, searched := [] } "f").toOption.isSome = true := by
      decide +kernel
    rw [hread] at hok
    cases hok
  | ok ds =>
    have hpath : AreNames ["A", "X"] := by decide
    obtain ⟨text, f, -, -, -, hanswer, -⟩ := definition_inside hlib (by decide) hread hpath nofun
    dsimp only at hanswer
    rw [show Address.inside ⟨"f"⟩ ["A", "X"] = ⟨"f:A.X"⟩ by decide +kernel] at hanswer
    rw [hanswer] at hnone ⊢
    cases hfollow : Source.follow _ _ ["A", "X"] <;> rw [hfollow] at hnone
    · rfl
    · cases hnone

end Library

end Boardwright

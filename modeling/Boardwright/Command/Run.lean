import Boardwright.Command.Build
import Boardwright.Command.Line
import Boardwright.Create.Run
import Boardwright.Package.Install

/-!
# Commands

The commands by their names, in two groups: that of those who design boards and that of
those who write templates for them. A group has switches of its own before the name of a
command. How much is logged is set once the command is known, and stays so.
-/

namespace Boardwright

namespace Command

/-- The groups of commands. -/
inductive Group
  | design
  | develop
  deriving Repr, DecidableEq

/-- The commands. -/
inductive Name
  | build
  | create
  | install
  | configure
  deriving Repr, DecidableEq

def Group.commands : Group → List (String × Name)
  | .design => [("build", .build), ("create", .create), ("install", .install)]
  | .develop => [("create", .create), ("configure", .configure)]

def Group.form : Group → Usage.Form
  | .design =>
    { switches := [{ key := "debug", long := "--debug" },
        { key := "verbose", short := some 'v', long := "--verbose" },
        { key := "version", long := "--version" }]
      mixed := false }
  | .develop => { mixed := false }

def Name.form : Name → Usage.Form
  | .build =>
    { switches := [{ key := "build", short := some 'b', long := "--build", takesValue := true },
        { key := "target", short := some 't', long := "--target", takesValue := true },
        { key := "option", short := some 'o', long := "--option", takesValue := true }]
      arguments := [("ENTRY", false)] }
  | .create =>
    { switches := [{ key := "repo", short := some 'r', long := "--repo", takesValue := true }]
      arguments := [("NAME", false)] }
  | .install =>
    { switches := [{ key := "jlcpcb", long := "--jlcpcb" }, { key := "upgrade", long := "--upgrade" }]
      arguments := [("TO_INSTALL", false)] }
  | .configure => { arguments := [("NAME", true), ("REPO_PATH", true)] }

def Name.run (n : Name) (w : Words) : Work Workshop Unit :=
  match n with
  | .build => Command.build { entry := w.arguments.head?, builds := w.all "build",
                              targets := w.all "target", options := w.all "option" }
  | .create => Create.run w.arguments.head? (w.last? "repo")
  | .install => Work.muffled
      (Workshop.install w.arguments.head? (0 < w.count "jlcpcb") (0 < w.count "upgrade"))
  | .configure =>
    Create.configure (w.arguments.headD "") (Route.ofText (w.arguments.getD 1 "")) true

/-- What a line did: it ran a command, or it showed the version. -/
inductive Result
  | ran
  | showedVersion
  deriving Repr, DecidableEq

def run (g : Group) (line : List String) : Work Workshop Result := do
  let w ← Work.ofExcept (Words.read g.form line {})
  if 0 < w.count "version" then
    Workshop.putLine ("ato, version " ++ (← get).installed)
    return .showedVersion
  else
    match w.arguments with
    | [] => Work.ofExcept (Words.fail .usage "Missing command.")
    | name :: rest =>
      match g.commands.lookup name with
      | none => Work.ofExcept (Words.fail .usage ("No such command " ++ Document.quoted name ++ "."))
      | some n =>
        if 0 < w.count "verbose" then
          modify fun shop => { shop with session.verbose := true }
        n.run (← Work.ofExcept (Words.ofLine n.form rest))
        return .ran

end Command

end Boardwright

import Boardwright.Create.Template
import Boardwright.Workshop

/-!
# Creating projects

A project is made from a repository that serves as its template. Its name is asked for
until it is a good one, and the repository until it can be cloned. Then the templates in
it are filled in, and what has changed is committed.

Asking goes on turn by turn, and each turn that is needed takes one question more from
the answers; as many turns as there are answers, and a few before the first question, are
all that there can be.
-/

namespace Boardwright

namespace Create

/-- Whether a text is a good name for a project: a letter, and then letters, digits,
hyphens and underscores. A line end after it does not count. -/
def isGoodName (s : String) : Bool :=
  match Template.withoutLastLineEnd s.toList with
  | [] => false
  | c :: cs => c.isAlpha && cs.all fun d => d.isAlphanum || d == '_' || d == '-'

/-- A text that is shown with an empty line before and after it. -/
def help (s : String) : Work Workshop Unit := Workshop.print ("\n" ++ s ++ "\n")

/-- What is said of a name that is not written with hyphens. -/
def nameAdvice (kebab : String) : String :=
  "We recommend using kebab-case ([cyan]" ++ kebab ++ "[/]) for your project name.\n" ++
  "It makes it easier to use your project with other tools (like git) and it embeds nicely into URLs."

def nameRule : String :=
  "[red]Project names must start with a letter and contain only letters, numbers, dashes and underscores.[/]"

def templateUrl (name : String) : String :=
  "https://github.com/new?name=" ++ name ++ "&template_owner=atopile&template_name=project-template"

def repositoryAdvice (name : String) : String :=
  "We recommend you create a Github repo for your project.\n\n" ++
  "If you already have a repo, you can respond [yellow]n[/]\n" ++
  "to the next question and provide the URL to your repo.\n\n" ++
  "If you don't have one, you can respond yes to the next question\n" ++
  "or (Cmd/Ctrl +) click the link below to create one.\n\n" ++
  "Just select the template you want to use.\n\n" ++ templateUrl name

def agreedName (name kebab : String) : Work Workshop String := do
  if name == kebab then return name
  else
    help (nameAdvice kebab)
    if ← Workshop.confirm ("Do you want to use [cyan]" ++ kebab ++ "[/] instead?") (some true) then
      return kebab
    else return name

/-- The name of the project, and `none` if there are no turns in which to find one.
`given` is what is known of it and `last` the last proposal. -/
def findName : Nat → Option String → Option String → Work Workshop (Option String)
  | 0, given, _ => return given
  | fuel + 1, given, last => do
    if !(← Workshop.turn) then return given
    else
      let asked ← match given with
        | none | some "" => Workshop.ask ":rocket: What's your project [cyan]name?[/]" last
        | some n => pure (some n)
      match asked with
      | none => findName fuel none last
      | some name =>
        let kebab := Text.kebab name
        let agreed ← agreedName name kebab
        if isGoodName agreed then return some agreed
        else
          help nameRule
          findName fuel none (some kebab)

def askRepository (name : String) : Work Workshop Document := do
  help (repositoryAdvice name)
  if ← Workshop.confirm ":rocket: Open browser to create Github repo?" (some true) then
    Workshop.call (.browse (templateUrl name))
  match ← Workshop.ask ":rocket: What's the [cyan]repo's URL?[/]" none with
  | some url => return .text url
  | none => return .null

/-- Whether the repository of an address could be cloned. -/
def tryClone (url : Document) (r : Route) : Work Workshop Bool := fun shop =>
  match (Workshop.clone url r).outcome shop with
  | (.ok _, shop') => (.ok true, shop')
  | (.error (.fault .gitCommand), shop') => (.ok false, shop')
  | (.error f, shop') => (.error f, shop')

/-- The repository is cloned to a directory with the name of the project. The answer says
whether there was a turn in which it could be. -/
def findRepository : Nat → String → Option String → Work Workshop Bool
  | 0, _, _ => return false
  | fuel + 1, name, given => do
    if !(← Workshop.turn) then return false
    else
      let url ← match given with
        | none | some "" => askRepository name
        | some u => pure (.text u)
      let home := Route.ofText name
      if (← Workshop.files).exists? home then
        throw (.fault (.usage .general ("Directory " ++ name ++
          " already exists. Please put the repo elsewhere or choose a different name.")))
      else if ← tryClone url home then return true
      else
        help ("[red]Failed to clone repo from " ++ url.show_ ++ "[/]")
        findRepository fuel name none

/-- One template is filled in; it is removed unless it is to be kept. -/
def fillTemplate (name : String) (root : Route) (keep : Bool) (below : List String) :
    Work Workshop Unit := do
  let template := below.foldl Route.joinText root
  let target := template.parent.joinText (Template.targetName name template.name)
  let names := [("name", name), ("rel_path", target.text), ("repo_root", root.text)]
  match Template.fill names (← Workshop.load template) with
  | none => throw (.fault .template)
  | some text =>
    Workshop.store target text
    if !keep then
      let fs ← Workshop.files
      Workshop.setFiles (fs.remove (fs.resolve template).parts)

/-- The templates below a directory are filled in. -/
def configure (name : String) (root : Route) (keep : Bool) : Work Workshop Unit := do
  let fs ← Workshop.files
  let home := (fs.resolve root).parts
  (fs.endingIn home Template.ending).forM fun e => fillTemplate name root keep (e.drop home.length)

/-- What is said when the templates have changed nothing. -/
def noChanges : String :=
  "[yellow]No changes to commit! Seems like the template you used mightn't be configurable?[/]"

def commitChanges (path : String) (home : Route) : Work Workshop Unit := do
  match ← Workshop.repository? home with
  | none => throw (.fault .unset)
  | some repository =>
    if repository.dirty then
      Workshop.call (.stage path)
      Workshop.call (.commit path "Configure project")
    else Workshop.print noChanges

def run (name repository : Option String) : Work Workshop Unit := do
  let turns := 2 * (← get).answers.length + 10
  let name ← findName turns name none
  if !(← findRepository turns (name.getD "") repository) then throw (.fault .unset)
  else
    let name := name.getD ""
    let home := (← Workshop.files).resolve (Route.ofText name)
    configure name home false
    commitChanges name home
    Workshop.print (":sparkles: [green]Created new project \"" ++ name ++ "\"![/] :sparkles:")

end Create

end Boardwright

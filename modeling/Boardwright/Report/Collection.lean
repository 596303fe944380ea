import Boardwright.Report.Notice

/-!
# Going on after a failure

Work on a list of items goes on after an item that failed, and what was met is
raised together at the end. `sift p f` says what becomes of a failure `f` of one
item: what `p` accepts is kept for later, one level of a group being opened, and
what it does not accept is raised at once. Failures with the same details are
raised once, the first of them.

The other ways of meeting a failure stand beside it: `handled` shows it and raises
a fatal report instead, `muffled` ends the program quietly when all that is left is
fatal, and `downgraded` shows it as a warning and goes on with another value.
-/

namespace Boardwright

namespace Failure

/-- What is kept of a failure for later, and what is raised at once. -/
def sift (p : Failure → Bool) (f : Failure) : List Failure × Option Failure :=
  if p f then ([f], none)
  else if f.isGroup then (((f.select p).map members).getD [], f.reject p)
  else ([], some f)

def distinct (fs : List Failure) : List Failure :=
  fs.foldl (fun shown f => if shown.any fun g => g.details == f.details then shown
    else shown ++ [f]) []

/-- What is raised after all items have been worked on. -/
def gathered (message : String) : List Failure → Option Failure
  | [] => none
  | f :: fs => some (.group message (distinct (f :: fs)))

variable {α : Type}

def failures (rs : List (Except Failure α)) : List Failure :=
  rs.filterMap fun
    | .ok _ => none
    | .error f => some f

/-- What is raised at once of outcomes. -/
def stop? (rs : List (Except Failure α)) : Option Failure :=
  (failures rs).findSome? fun f => (f.sift isError).2

def kept (rs : List (Except Failure α)) : List Failure :=
  (failures rs).flatMap fun f => (f.sift isError).1

/-- What is left of a list of outcomes: the first failure that is no report, or else
all reports together, or else the results. -/
def gather (rs : List (Except Failure α)) : Except Failure (List α) :=
  match stop? rs with
  | some stop => .error stop
  | none =>
    match gathered "" (kept rs) with
    | some f => .error f
    | none => .ok (rs.filterMap Except.toOption)

end Failure

section Collection

variable {σ τ α β : Type}

abbrev Work (σ α : Type) := ExceptT Failure (StateM σ) α

namespace Work

/-- The outcome of a piece of work and the state it leaves. -/
def outcome (w : Work σ α) (s : σ) : Except Failure α × σ := (ExceptT.run w).run s

/-- Work on each item in turn. The failures that `p` accepts are kept in `kept`; any
other ends the work at once. -/
def collecting (p : Failure → Bool) (work : α → Work σ β) :
    List α → List Failure → Work σ (List β × List Failure)
  | [], kept => pure ([], kept)
  | x :: xs, kept => fun s =>
    match (work x).outcome s with
    | (.ok y, s') => (do
        let (ys, fs) ← collecting p work xs kept
        pure (y :: ys, fs) : Work σ (List β × List Failure)) s'
    | (.error f, s') =>
      match f.sift p with
      | (more, none) => collecting p work xs (kept ++ more) s'
      | (_, some stop) => (.error stop, s')

/-- Work on each item in turn, raising what failed together at the end. -/
def eachOf (p : Failure → Bool) (message : String) (work : α → Work σ β) (xs : List α) :
    Work σ (List β) := do
  let (ys, kept) ← collecting p work xs []
  match Failure.gathered message kept with
  | none => pure ys
  | some f => throw f

/-- Work on each item in turn, raising the reports together at the end. -/
def each (work : α → Work σ β) (xs : List α) : Work σ (List β) :=
  eachOf Failure.isError "" work xs

/-- Work whose failure, if it is a report or a group, is shown by `show_` and then
raised as a fatal report. -/
def handled (show_ : Failure → σ → Option Failure × σ) (w : Work σ α) : Work σ α := fun s =>
  match w.outcome s with
  | (.ok x, s') => (.ok x, s')
  | (.error f, s') =>
    if f.isError || f.isGroup then
      match show_ f s' with
      | (some stop, s'') => (.error stop, s'')
      | (none, s'') => (.error (.report { kind := .fatal }), s'')
    else (.error f, s')

/-- Work after whose fatal failure the program ends; what is not fatal is raised. -/
def muffled (w : Work σ α) : Work σ α := fun s =>
  match w.outcome s with
  | (.ok x, s') => (.ok x, s')
  | (.error f, s') =>
    if f.isFatal then (.error (.exit 1), s')
    else if f.isGroup then
      match f.reject Failure.isFatal with
      | some rest => (.error rest, s')
      | none => (.error (.exit 1), s')
    else (.error f, s')

/-- Work that goes on with `instead` after a failure that `p` accepts, which is shown
by `note`. -/
def downgraded (p : Failure → Bool) (note : Failure → σ → Option Failure × σ)
    (instead : Work σ α) (w : Work σ α) : Work σ α := fun s =>
  match w.outcome s with
  | (.ok x, s') => (.ok x, s')
  | (.error f, s') =>
    if p f then
      match note f s' with
      | (some stop, s'') => (.error stop, s'')
      | (none, s'') => instead s''
    else (.error f, s')

/-- Work of which the outcome is already known. -/
def ofExcept (r : Except Failure α) : Work σ α := fun s => (r, s)

def within (get : σ → τ) (set : τ → σ → σ) (w : Work τ α) : Work σ α := fun s =>
  let (r, t) := w.outcome (get s)
  (r, set t s)

/-- Work after which the state is put in order, whether it failed or not. -/
def finally_ (w : Work σ α) (restore : σ → σ) : Work σ α := fun s =>
  let (r, s') := w.outcome s
  (r, restore s')

/-- Work after whose failure the state is put in order. -/
def onFailure (w : Work σ α) (restore : σ → σ) : Work σ α := fun s =>
  match w.outcome s with
  | (.ok x, s') => (.ok x, s')
  | (.error f, s') => (.error f, restore s')

end Work

end Collection

end Boardwright

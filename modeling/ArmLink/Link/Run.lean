import ArmLink.Link

/-!
# Links between files

`Link.run` reads the object files, links them and makes the output file. Nothing is written before
everything is known about the file.
-/

namespace ArmLink.Link

variable {m : Type → Type} [Monad m]

/-- The phases as a host carries them out, if they are to be reported. -/
def observerFor (host : Host m) (o : Options) : Observer m :=
  if o.reportPhases then host.toObserver else .silent

/-- Several steps that make up a phase. -/
def during (observer : Observer m) (phase : Phase) {α : Type} (steps : ExceptT LinkError m α) :
    ExceptT LinkError m α :=
  ExceptT.mk (observer.during phase steps.run)

/-- Reads the object files up to the first that cannot be read. -/
def readAll (host : Host m) : List String → ExceptT LinkError m (List Object)
  | [] => pure []
  | path :: rest => do
    let bytes ← ExceptT.lift (host.read path)
    let object ← plainStep (readObject path bytes)
    let others ← readAll host rest
    return object :: others

/-- The bytes of the build id of a file that lacks nothing else. -/
def identify (host : Host m) (observer : Observer m) (id : BuildId) (image : Array UInt8) :
    ExceptT LinkError m Bytes :=
  match id with
  | .fast => step observer .computeBuildId fun _ => .ok (Image.buildIdBytes .fast [] image)
  | .uuid => ExceptT.lift host.uuid
  | id => pure (Image.buildIdBytes id [] image)

/-- The planned file, filled. -/
def fillImage (host : Host m) (observer : Observer m) (o : Options) (p : Placed)
    (plan : Image.Plan) : ExceptT LinkError m (Array UInt8) := do
  let image ← plainStep (plan.start.mapError .write)
  let image ← step observer .writeSections fun _ =>
    (Image.putSymbols p.table p.layout image).mapError .write
  let image ← plainStep ((plan.complete image).mapError .write)
  if plan.front.note.isNone then return image
  else
    let id ← identify host observer o.buildId image
    plainStep ((plan.identify id image).mapError .write)

def fillFile (host : Host m) (observer : Observer m) (o : Options) (p : Placed)
    (plan : Image.Plan) : ExceptT LinkError m Unit := do
  let image ← fillImage host observer o p plan
  let filled ← ExceptT.lift (host.fill o.output image)
  plainStep (filled.mapError (.fillOutput o.output))

/-- Makes the output file. If it cannot be filled, it is taken away again. -/
def writeFile (host : Host m) (observer : Observer m) (o : Options) (p : Placed)
    (plan : Image.Plan) : ExceptT LinkError m Unit := do
  let created ← ExceptT.lift (host.create o.output)
  plainStep (created.mapError (.openOutput o.output))
  let filled ← ExceptT.lift (fillFile host observer o p plan).run
  match filled with
  | .ok () => step observer .unmapFile fun _ => .ok ()
  | .error reason =>
    ExceptT.lift (host.remove o.output)
    throw reason

/-- Plans the output file and makes it. -/
def emit (host : Host m) (o : Options) (p : Placed) : ExceptT LinkError m Unit :=
  let observer := observerFor host o
  during observer .writeOutput do
    let plan ← plainStep ((Image.plan p.table p.layout o p.relocations).mapError .plan)
    match plan.warning with
    | some warning => ExceptT.lift (host.warn warning.message)
    | none => pure ()
    during observer .writeFile (writeFile host observer o p plan)

/-- From object files to the output file. -/
def run (host : Host m) (o : Options) : m (Except LinkError Unit) :=
  let observer := observerFor host o
  ExceptT.run <| during observer .link do
    let objects ← during observer .readInputs (readAll host o.inputs)
    let placed ← prepareWith observer o objects
    emit host o placed

end ArmLink.Link

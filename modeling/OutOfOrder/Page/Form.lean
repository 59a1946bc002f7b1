import OutOfOrder.Instruction.Build
import OutOfOrder.Machine.Pool
import OutOfOrder.Page.Answers
/-!
# The form of the page

The page asks for numbers in boxes: how many stations each kind of unit has
and how long they take, the fields of the next instruction, the start
address, a word of memory, the first values of the registers. Each box is
asked for with its bounds and a default. The bounds of an address latency
follow the latency chosen above it, and so does its default.
-/

namespace OutOfOrder.Page

/-! ## The pool -/

/-- The box for the address latency of a row, below the latency. -/
def addressRequest (name : String) (default latency : Int) : Request :=
  ⟨s!"addr_{name}", min default latency, 0, some latency⟩

/-- The boxes of one row of the pool table, and the row they describe. -/
def askPoolRow (a : Answers) (name : String) (row : PoolRow) :
    List NumberBox × (String × PoolRow) :=
  let count := a.ask ⟨s!"rs_{name}", row.stationCount.getD 1, 1, none⟩
  let latency := a.ask ⟨s!"lat_{name}", row.latency.getD 1, 1, none⟩
  let set : PoolRow := { stationCount := some count.value, latency := some latency.value }
  match row.addressLatency with
  | none => ([count, latency], (name, set))
  | some default =>
    let address := a.ask (addressRequest name default latency.value)
    ([count, latency, address], (name, { set with addressLatency := some address.value }))

/-- The boxes of the pool, row by row. -/
def askPool (a : Answers) : List (List NumberBox × (String × PoolRow)) :=
  PoolTable.standard.map fun (name, row) => askPoolRow a name row

/-! ## The next instruction -/

/-- The caption of a field's box. -/
def fieldCaption : Field → String
  | .rA => "rA"
  | .rB => "rB"
  | .rC => "rC"
  | .offset => "Offset"
  | .label => "Label"

/-- The values a field's box admits. -/
def fieldBounds : Field → Int × Int
  | .rA | .rB | .rC => (0, 7)
  | .offset => (-16, 15)
  | .label => (-64, 63)

/-- The box for a field. -/
def fieldRequest (f : Field) : Request :=
  ⟨fieldCaption f, 0, (fieldBounds f).1, some (fieldBounds f).2⟩

/-- The box of a field. -/
def askField (a : Answers) (f : Field) : NumberBox := a.ask (fieldRequest f)

/-- The draft that the boxes of an operation's fields describe. -/
def draft (a : Answers) : Draft :=
  let value (f : Field) := if f ∈ a.opcode.fields then some (askField a f).value else none
  { opcode := .name a.opcode.name
    rA := value .rA
    rB := value .rB
    rC := value .rC
    offset := value .offset
    label := value .label }

/-! ## What the form says -/

/-- The form, with what it describes. -/
structure Form where
  opcode : OpCode
  relativeCalls : Bool
  pool : PoolTable
  next : Draft
  start : Int
  address : Int
  value : Int
  registers : List Int
  /-- The boxes beside the page, those of the next instruction, and those
  below its button. -/
  poolBoxes : List NumberBox
  fieldBoxes : List NumberBox
  entryBoxes : List NumberBox

/-- **The form of a run.** -/
def Form.ask (a : Answers) : Form :=
  let pool := askPool a
  let start := a.askWord "Start Address" 0
  let address := a.askWord "Address" 100
  let value := a.askWord "Value" 0
  let registers := (List.range' 1 7).map fun n => a.askWord s!"reg_{n}" 0
  { opcode := a.opcode
    relativeCalls := a.relativeCalls
    pool := pool.map Prod.snd
    next := draft a
    start := start.value
    address := address.value
    value := value.value
    registers := 0 :: registers.map NumberBox.value
    poolBoxes := pool.flatMap Prod.fst
    fieldBoxes := a.opcode.fields.map (askField a)
    entryBoxes := [start, address, value] ++ registers }

end OutOfOrder.Page

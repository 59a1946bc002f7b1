import OutOfOrder.Report.Timing
import OutOfOrder.Text.Padding
/-!
# The timing table as text

The timing rows in columns of fixed width, between a heading and the count
of mispredicted branches. Numbers stand at the right of their column, texts
at the left, and a dash for a cycle that is not known.
-/

namespace OutOfOrder

namespace TimingRow

/-- A number that may be missing. -/
def cell {α : Type} [ToString α] : Option α → String
  | some v => toString v
  | none => "-"

/-- The columns of the table, in their widths. -/
def columns (address instruction station issued executed writtenBack latency : String) : String :=
  " | ".intercalate [Text.padLeft 5 address, Text.padRight 22 instruction,
    Text.padRight 8 station, Text.padLeft 6 issued, Text.padLeft 6 executed,
    Text.padLeft 6 writtenBack, Text.padLeft 7 latency]

/-- A row as a line. -/
def line (r : TimingRow) : String :=
  columns (toString r.address) r.instruction r.station (toString r.issued) (cell r.executed)
    (cell r.writtenBack) (cell r.latency)

end TimingRow

namespace Machine

/-- The misprediction rate with six decimal places. -/
def rateText (m : Machine) : String := Text.sixPlaces m.roundedRate

/-- The lines of the timing table. -/
def timingLines (m : Machine) : List String :=
  ["--- Instruction Timing Results ---",
    TimingRow.columns "Addr" "Instruction" "RS" "Issue" "Exec" "WB" "Latency",
    String.ofList (List.replicate 80 '-')]
  ++ (m.timingRows none).map TimingRow.line
  ++ [s!"Branch mispredictions: {m.mispredictions}/{m.branches}",
    "--- End of Timing Results ---"]

/-- **The timing table.** -/
def timingTable (m : Machine) : String := "\n".intercalate m.timingLines

end Machine

end OutOfOrder

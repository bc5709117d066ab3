import OpsLang.Text.Blank

/-!
# Physical quantities and their units

The closed table of unit spellings that may follow a number. A unit is no more than its
spelling and the quantity it measures (`Quantity.ofUnit?`) : nothing here converts values.
Spellings are case-sensitive and reserved, and some hold a slash, so `longestUnit` reads
the longest spelling at the front of a text that no word character follows.
-/

namespace OpsLang

/-- What a unit measures. -/
inductive Quantity where
  | temperature
  | angular
  | length
  | time
  | electrical
  | frequency
  | pressure
  | mass
  | force
  | energy
  | velocity
  | acceleration
  | magneticFlux
  | volumetricFlow
  | ratio
  | dataVolume
  | concentration
  | radiation
  deriving DecidableEq, Repr, Inhabited

namespace Quantity

/-- The name of a quantity. -/
def text : Quantity → String
  | temperature => "temperature"
  | angular => "angular"
  | length => "length"
  | time => "time"
  | electrical => "electrical"
  | frequency => "frequency"
  | pressure => "pressure"
  | mass => "mass"
  | force => "force"
  | energy => "energy"
  | velocity => "velocity"
  | acceleration => "acceleration"
  | magneticFlux => "magnetic_flux"
  | volumetricFlow => "volumetric_flow"
  | ratio => "dimensionless_ratio"
  | dataVolume => "data_volume"
  | concentration => "concentration"
  | radiation => "radiation"

/-- Every quantity, in the order of listings. -/
def all : List Quantity :=
  [temperature, angular, length, time, electrical, frequency, pressure, mass, force, energy,
    velocity, acceleration, magneticFlux, volumetricFlow, ratio, dataVolume, concentration,
    radiation]

/-- The unit spellings of a quantity, in the order of listings. -/
def units : Quantity → List String
  | temperature => ["degC", "degF", "K", "mK"]
  | angular => ["deg", "rad", "mrad", "urad", "arcmin", "arcsec", "deg/s", "rad/s", "deg/s2",
      "rad/s2"]
  | length => ["m", "km", "cm", "mm", "um", "nm"]
  | time => ["s", "ms", "us", "ns", "h", "day"]
  | electrical => ["V", "mV", "kV", "A", "mA", "uA", "W", "mW", "kW", "Ohm", "kOhm", "MOhm", "uF",
      "nF", "Ah", "mAh"]
  | frequency => ["Hz", "kHz", "MHz", "GHz", "rpm"]
  | pressure => ["Pa", "hPa", "kPa", "MPa", "bar", "mbar", "psi", "Torr"]
  | mass => ["kg", "g", "mg"]
  | force => ["N", "mN", "kN", "Nm"]
  | energy => ["J", "kJ", "Wh", "kWh", "eV"]
  | velocity => ["m/s", "km/s", "km/h"]
  | acceleration => ["m/s2", "mm/s2"]
  | magneticFlux => ["T", "mT", "uT", "nT", "Wb"]
  | volumetricFlow => ["L/s", "L/min", "m3/s", "sccm"]
  | ratio => ["%", "ppm", "dB"]
  | dataVolume => ["bit", "kbit", "Mbit", "B", "kB", "MB", "GB", "bps", "kbps", "Mbps"]
  | concentration => ["mol/L", "mmol/L", "mg/L", "ppb"]
  | radiation => ["Gy", "mGy", "krad", "Sv", "mSv", "W/m2"]

/-- The quantity that a unit spelling measures. -/
def ofUnit? (spelling : String) : Option Quantity :=
  all.find? fun q => q.units.contains spelling

theorem mem_all (q : Quantity) : q ∈ all := by
  cases q <;> decide

end Quantity

/-- Every unit spelling. -/
def unitSpellings : List String :=
  Quantity.all.flatMap Quantity.units

/-- The word is a unit spelling. -/
def isUnit (word : String) : Bool :=
  (Quantity.ofUnit? word).isSome

/-- The text does not begin with a word character. -/
def atWordEnd : List Char → Bool
  | [] => true
  | c :: _ => !isWordChar c

/-- The spelling `unit` stands at the front of `text` and ends there on a word boundary. -/
def unitAtFront (text : List Char) (unit : String) : Bool :=
  unit.toList.isPrefixOf text && atWordEnd (text.drop unit.length)

/-- The longer of two spellings. -/
def longerOf (best : Option String) (unit : String) : Option String :=
  match best with
  | none => some unit
  | some b => if b.length < unit.length then some unit else some b

/-- The longest unit spelling at the front of `text` that ends there on a word boundary. -/
def longestUnit (text : List Char) : Option String :=
  (unitSpellings.filter (unitAtFront text)).foldl longerOf none

end OpsLang

import Ramify.Powers
import Ramify.Scalar

/-!
The catalogue of units: for each symbol, how much one unit is in base units, and its dimension.
-/

namespace Ramify

/-- Exponents over base dimensions, each named by the symbol of its base unit. -/
abbrev Dimension := Powers String

/-- What a unit measures: its size in base units, and its dimension. -/
structure Measure (K : Type) where
  scale : K
  dimension : Dimension

namespace Units

def entry {K : Type} (symbol : String) (scale : K) (dimension : List (String × Int)) :
    String × Measure K :=
  (symbol, ⟨scale, Powers.ofList dimension⟩)

variable {K : Type} [Scalar K]

def baseSymbols : List String := ["m", "kg", "s", "A", "K", "mol", "cd", "bit", "rad"]

/-- A unit that is its own dimension. -/
def baseMeasure (symbol : String) : Measure K := ⟨1, Powers.single symbol 1⟩

def base : List (String × Measure K) := baseSymbols.map (fun symbol => (symbol, baseMeasure symbol))

/-- Units of length and its inverse. -/
def lengths : List (String × Measure K) := [
  entry "km" 1e3 [("m", 1)],
  entry "dm" 0.1 [("m", 1)],
  entry "cm" 0.01 [("m", 1)],
  entry "mm" 1e-3 [("m", 1)],
  entry "um" 1e-6 [("m", 1)],
  entry "nm" 1e-9 [("m", 1)],
  entry "pm" 1e-12 [("m", 1)],
  entry "inch" 0.0254 [("m", 1)],
  entry "ft" 0.3048 [("m", 1)],
  entry "yd" 0.9144 [("m", 1)],
  entry "mi" 1609.344 [("m", 1)],
  entry "nmi" 1852.0 [("m", 1)],
  entry "au" 149597870700.0 [("m", 1)],
  entry "ly" 9460730472580800.0 [("m", 1)],
  entry "dioptre" 1 [("m", -1)]]

def masses : List (String × Measure K) := [
  entry "g" 1e-3 [("kg", 1)],
  entry "mg" 1e-6 [("kg", 1)],
  entry "ug" 1e-9 [("kg", 1)],
  entry "tonne" 1e3 [("kg", 1)],
  entry "lb" 0.45359237 [("kg", 1)],
  entry "u" 1.66053906660e-27 [("kg", 1)]]

def times : List (String × Measure K) := [
  entry "ms" 1e-3 [("s", 1)],
  entry "us" 1e-6 [("s", 1)],
  entry "ns" 1e-9 [("s", 1)],
  entry "ps" 1e-12 [("s", 1)],
  entry "min" 60.0 [("s", 1)],
  entry "h" 3600.0 [("s", 1)],
  entry "day" 86400.0 [("s", 1)],
  entry "year" (365.25 * 86400.0) [("s", 1)],
  entry "common_year" (365.0 * 86400.0) [("s", 1)],
  entry "tropical_year" (365.24219 * 86400.0) [("s", 1)],
  entry "sidereal_year" (365.256363004 * 86400.0) [("s", 1)]]

/-- Units of area and volume. -/
def volumes : List (String × Measure K) := [
  entry "ha" 1e4 [("m", 2)],
  entry "L" 1e-3 [("m", 3)],
  entry "dL" 1e-4 [("m", 3)],
  entry "cL" 1e-5 [("m", 3)],
  entry "mL" 1e-6 [("m", 3)],
  entry "quart" 9.46352946e-4 [("m", 3)]]

/-- Units of mechanics, and others derived from length, mass, time and amount. -/
def mechanics : List (String × Measure K) := [
  entry "N" 1 [("kg", 1), ("m", 1), ("s", -2)],
  entry "J" 1 [("kg", 1), ("m", 2), ("s", -2)],
  entry "W" 1 [("kg", 1), ("m", 2), ("s", -3)],
  entry "Pa" 1 [("kg", 1), ("m", -1), ("s", -2)],
  entry "bar" 1e5 [("kg", 1), ("m", -1), ("s", -2)],
  entry "atm" 101325.0 [("kg", 1), ("m", -1), ("s", -2)],
  entry "psi" 6894.757293168361 [("kg", 1), ("m", -1), ("s", -2)],
  entry "mmHg" 133.322 [("kg", 1), ("m", -1), ("s", -2)],
  entry "Hz" 1 [("s", -1)],
  entry "Bq" 1 [("s", -1)],
  entry "Gy" 1 [("m", 2), ("s", -2)],
  entry "eV" 1.602176634e-19 [("kg", 1), ("m", 2), ("s", -2)],
  entry "kat" 1 [("mol", 1), ("s", -1)]]

/-- Units of electromagnetism and light. -/
def electromagnetism : List (String × Measure K) := [
  entry "C" 1 [("A", 1), ("s", 1)],
  entry "V" 1 [("kg", 1), ("m", 2), ("s", -3), ("A", -1)],
  entry "ohm" 1 [("kg", 1), ("m", 2), ("s", -3), ("A", -2)],
  entry "F" 1 [("kg", -1), ("m", -2), ("s", 4), ("A", 2)],
  entry "H" 1 [("kg", 1), ("m", 2), ("s", -2), ("A", -2)],
  entry "T" 1 [("kg", 1), ("s", -2), ("A", -1)],
  entry "S" 1 [("kg", -1), ("m", -2), ("s", 3), ("A", 2)],
  entry "lux" 1 [("cd", 1), ("m", -2)]]

/-- Units of angle, ratio and information. -/
def ratios : List (String × Measure K) := [
  entry "deg" 0.0174532925199433 [("rad", 1)],
  entry "mil" 1e-3 [("rad", 1)],
  entry "sr" 1 [("rad", 2)],
  entry "percent" 0.01 [],
  entry "permille" 1e-3 [],
  entry "byte" 8.0 [("bit", 1)],
  entry "KiB" 8192.0 [("bit", 1)],
  entry "MiB" 8388608.0 [("bit", 1)],
  entry "GiB" 8589934592.0 [("bit", 1)],
  entry "TiB" 8796093022208.0 [("bit", 1)]]

/-- Physical constants, used as units. -/
def constants : List (String × Measure K) := [
  entry "c" 299792458.0 [("m", 1), ("s", -1)],
  entry "g0" 9.80665 [("m", 1), ("s", -2)],
  entry "G" 6.67430e-11 [("m", 3), ("kg", -1), ("s", -2)],
  entry "k_B" 1.380649e-23 [("m", 2), ("kg", 1), ("s", -2), ("K", -1)],
  entry "N_A" 6.02214076e23 [("mol", -1)],
  entry "e" 1.602176634e-19 [("A", 1), ("s", 1)],
  entry "hbar" 1.054571817e-34 [("m", 2), ("kg", 1), ("s", -1)],
  entry "R" 8.31446261815324 [("m", 2), ("kg", 1), ("s", -2), ("K", -1), ("mol", -1)],
  entry "faraday_constant" 96485.33212 [("A", 1), ("s", 1), ("mol", -1)],
  entry "eps0" 8.8541878128e-12 [("m", -3), ("kg", -1), ("s", 4), ("A", 2)],
  entry "mu0" 1.25663706212e-6 [("m", 1), ("kg", 1), ("s", -2), ("A", -2)],
  entry "sigma_SB" 5.670374419e-8 [("kg", 1), ("s", -3), ("K", -4)]]

/-- All registered units, base units first. -/
def catalogue : List (String × Measure K) :=
  base ++ lengths ++ masses ++ times ++ volumes ++
    mechanics ++ electromagnetism ++ ratios ++ constants

def find? (symbol : String) : Option (Measure K) :=
  (catalogue.find? (fun entry => entry.1 == symbol)).map Prod.snd

/-- What a unit tag measures. A symbol that is not registered is a base dimension of its own. -/
def measure (symbol : String) : Measure K := (find? symbol).getD (baseMeasure symbol)

end Units

end Ramify

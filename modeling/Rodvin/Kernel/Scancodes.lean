/-
  Rodvin.Kernel.Scancodes — the numbers of the keys (`kernel/src/common/Scancodes.h`), as the
  keyboard drivers give them to `Keyboard::onInput`.
-/

namespace Rodvin.Kernel

inductive ScanCodes where
  | Invalid | BackTick | N0 | N1 | N2 | N3 | N4 | N5 | N6 | N7 | N8 | N9 | Dash | Equals | BracketOpen | BracketClose
  | Backslash | Semicolon | Apostrophe | Comma | Dot | Slash | Space | A | B | C | D | E | F | G | H | I | J | K | L
  | M | N | O | P | Q | R | S | T | U | V | W | X | Y | Z | Enter | Backspace | Tab | DotK | EnterK | DashK
  | MultiplyK | PlusK | SlashK | N0K | N1K | N2K | N3K | N4K | N5K | N6K | N7K | N8K | N9K | ShiftLeft | ShiftRight
  | CtrlLeft | CtrlRight | AltLeft | AltRight | PlatformLeft | PlatformRight | Menu | Escape | PrintScreen | CapsLock
  | NumLock | ScrollLock | Pause | Insert | Delete | Home | End | PageUp | PageDown | F1 | F2 | F3 | F4 | F5 | F6 | F7
  | F8 | F9 | F10 | F11 | F12 | ArrowUp | ArrowLeft | ArrowRight | ArrowDown | AcpiPower | AcpiSleep | AcpiWake
  | MultimediaInternetBack | MultimediaInternetFavorites | MultimediaInternetForward | MultimediaInternetHomepage
  | MultimediaInternetRefresh | MultimediaInternetSearch | MultimediaInternetStop | MultimediaMediaSelect | Mute
  | VolumeDown | VolumeUp | PreviousTrack | PlayPause | MultimediaStop | NextTrack | ProgramsCalculator
  | ProgramsEmail | ProgramsExplorer | Maximum
  deriving DecidableEq, Repr

namespace ScanCodes

def KeyReleased : Nat := 0x8000

/-- `typedef uint16_t ScanCode`. -/
def code (sc : ScanCodes) : Nat := sc.ctorIdx

end ScanCodes

end Rodvin.Kernel

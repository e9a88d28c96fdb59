import Mathlib

namespace Levos

def einval : Int := 1
def enospc : Int := 3
def enotty : Int := 4
def enosys : Int := 5
def enodev : Int := 6
def enoent : Int := 7
def ebusy : Int := 8
def emfile : Int := 9
def enotdir : Int := 11

end Levos
